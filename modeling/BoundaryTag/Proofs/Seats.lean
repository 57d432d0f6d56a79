/-
  BoundaryTag.Proofs.Seats — where the addresses that a program holds lie in the blocks of a heap.

  An address for a small alignment is that of its block. Any other lies within its block, at
  least a word above the block's address, and that word below it has the block's address. As
  the program writes at and above its addresses only, and the heap writes into no live block,
  the words stay as they are.

  Every address has a block to itself, and every live block has an address (`Leased`).

  Proved: this outlasts all writes but those to the words below addresses
  (`Leased.congr`); an address can be given up with its block (`Leased.vacate`) and one
  can be added with a new block (`Leased.rent`); and then the addresses are aligned and
  their bytes are their own (`Leased.relied`).
-/

import BoundaryTag.GlobalHeap
import BoundaryTag.Proofs.Laid
import Mathlib.Logic.Function.Basic

namespace BoundaryTag

/-- The addresses that a program has from a global heap, with their layouts. -/
abbrev Holdings := Nat → Option Layout

namespace Layout

/-- A layout that a program may ask for. -/
structure Proper (l : Layout) : Prop where
  valid : l.isValid = true
  power : l.align.isPowerOfTwo

/-- A proper layout can be padded. -/
theorem Proper.padded {l : Layout} (h : l.Proper) : l.size + l.align < wordLimit := by
  have hvalid := h.valid
  simp only [isValid, decide_eq_true_eq, signedMax] at hvalid
  simp only [wordLimit]
  omega

/-- The address of the block that `p` lies in, for an address of this layout. -/
def block (l : Layout) (m : Memory) (p : Nat) : Nat :=
  if l.align ≤ wordSize then p else m.word (p - wordSize)

/-- The byte `x` is one of the word below `p` that has the block's address. -/
def Stash (l : Layout) (p x : Nat) : Prop := wordSize < l.align ∧ p - wordSize ≤ x ∧ x < p

theorem block_small {l : Layout} (h : l.align ≤ wordSize) (m : Memory) (p : Nat) :
    l.block m p = p := if_pos h

theorem block_large {l : Layout} (h : wordSize < l.align) (m : Memory) (p : Nat) :
    l.block m p = m.word (p - wordSize) :=
  if_neg (Nat.not_le.mpr h)

theorem block_congr {l : Layout} {m m' : Memory} {p : Nat}
    (hm : ∀ x, l.Stash p x → m'.byte x = m.byte x) (hp : wordSize < l.align → wordSize ≤ p) :
    l.block m' p = l.block m p := by
  by_cases hsmall : l.align ≤ wordSize
  · rw [block_small hsmall, block_small hsmall]
  · have hlarge := Nat.lt_of_not_le hsmall
    have h8 := hp hlarge
    rw [block_large hlarge, block_large hlarge]
    exact Memory.word_congr fun x h1 h2 =>
      hm x ⟨hlarge, h1, by simp only [wordSize] at h2 h8 ⊢; omega⟩

end Layout

variable {m m' : Memory} {l k : Layout} {p q x : Nat} {e f : Entry} {es es' : List Entry}
  {holds : Holdings}

/-- The address `p`, of the layout `l`, in the block `e`. -/
structure Seat (m : Memory) (l : Layout) (p : Nat) (e : Entry) : Prop where
  block : l.block m p = e.bp
  aligned : p % l.align = 0
  above : e.bp ≤ p
  stash : wordSize < l.align → e.bp + wordSize ≤ p
  room : p + l.size + wordSize ≤ e.bp + e.size

namespace Seat

theorem congr (h : Seat m l p e) (hm : ∀ x, l.Stash p x → m'.byte x = m.byte x) : Seat m' l p e :=
  ⟨(Layout.block_congr hm fun hl => Nat.le_of_add_left_le (h.stash hl)).trans h.block, h.aligned,
    h.above, h.stash, h.room⟩

/-- The word below the address is in the block's payload. -/
theorem payload_of_stash (h : Seat m l p e) (hx : l.Stash p x) : e.Payload x := by
  obtain ⟨hlarge, h1, h2⟩ := hx
  have hstash := h.stash hlarge
  have hroom := h.room
  simp only [wordSize] at *
  exact ⟨by omega, by omega⟩

/-- So are the bytes that the address is for. -/
theorem payload_of_range (h : Seat m l p e) (h1 : p ≤ x) (h2 : x < p + l.size) : e.Payload x := by
  have habove := h.above
  have hroom := h.room
  simp only [wordSize] at *
  exact ⟨by omega, by omega⟩

/-- Addresses in blocks that are apart. -/
theorem apart (h : Seat m l p e) (h' : Seat m k q f) (hapart : e.Apart f) :
    e.bp ≠ f.bp ∧ (p + l.size < q ∨ q + k.size < p) := by
  have h1 := h.above
  have h2 := h.room
  have h3 := h'.above
  have h4 := h'.room
  simp only [wordSize] at h2 h4
  rcases hapart with h5 | h5
  · exact ⟨by omega, .inl (by omega)⟩
  · exact ⟨by omega, .inr (by omega)⟩

/-- A block's own address, for a small alignment. -/
theorem plain (hsmall : l.align ≤ wordSize) (hpow : l.align.isPowerOfTwo) (h8 : e.bp % 8 = 0)
    (hroom : l.size + 8 ≤ e.size) :
    Seat m l e.bp e := by
  refine ⟨Layout.block_small hsmall m _, ?_, Nat.le_refl _,
    fun hlarge => absurd hsmall (Nat.not_le.mpr hlarge), ?_⟩
  · obtain ⟨k, hk⟩ := hpow
    have hk3 : k ≤ 3 := by
      by_contra hk3
      have := Nat.pow_le_pow_right (show 0 < 2 by decide) (show 4 ≤ k by omega)
      simp only [wordSize] at hsmall
      omega
    have hdvd : 2 ^ k ∣ e.bp := Nat.dvd_trans (Nat.pow_dvd_pow 2 hk3) (Nat.dvd_of_mod_eq_zero h8)
    rw [hk]
    exact Nat.mod_eq_zero_of_dvd hdvd
  · simp only [wordSize]
    omega

end Seat

/-- Every address has a block to itself, and every block has an address. -/
structure Leased (m : Memory) (es : List Entry) (holds : Holdings) : Prop where
  power : ∀ p l, holds p = some l → l.align.isPowerOfTwo
  seat : ∀ p l, holds p = some l → ∃ e ∈ es, Seat m l p e
  tenant : ∀ e ∈ es, ∃ p l, holds p = some l ∧ l.block m p = e.bp
  alone : ∀ p l q k, holds p = some l → holds q = some k → l.block m p = k.block m q → p = q

namespace Leased

theorem nobody (m : Memory) : Leased m [] fun _ => none :=
  ⟨fun _ _ h => (nomatch h), fun _ _ h => (nomatch h), fun _ h => absurd h List.not_mem_nil,
    fun _ _ _ _ h => (nomatch h)⟩

theorem block_congr (h : Leased m es holds)
    (hm : ∀ p l, holds p = some l → ∀ x, l.Stash p x → m'.byte x = m.byte x)
    (hp : holds p = some l) : l.block m' p = l.block m p := by
  obtain ⟨e, -, hseat⟩ := h.seat p l hp
  rw [(hseat.congr (hm p l hp)).block, hseat.block]

theorem congr (h : Leased m es holds)
    (hm : ∀ p l, holds p = some l → ∀ x, l.Stash p x → m'.byte x = m.byte x) :
    Leased m' es holds := by
  refine ⟨h.power, ?_, ?_, ?_⟩
  · intro p l hp
    obtain ⟨e, he, hseat⟩ := h.seat p l hp
    exact ⟨e, he, hseat.congr (hm p l hp)⟩
  · intro e he
    obtain ⟨p, l, hp, hblock⟩ := h.tenant e he
    exact ⟨p, l, hp, (h.block_congr hm hp).trans hblock⟩
  · intro p l q k hp hq hsame
    rw [h.block_congr hm hp, h.block_congr hm hq] at hsame
    exact h.alone p l q k hp hq hsame

/-- Bytes in the blocks' payloads are enough. -/
theorem kept (h : Leased m es holds) (hm : ∀ e ∈ es, ∀ x, e.Payload x → m'.byte x = m.byte x) :
    Leased m' es holds := by
  refine h.congr fun p l hp x hx => ?_
  obtain ⟨e, he, hseat⟩ := h.seat p l hp
  exact hm e he x (hseat.payload_of_stash hx)

/-- An address is given up with its block. -/
theorem vacate (h : Leased m es holds) (hp : holds p = some l)
    (hes : ∀ f, f ∈ es' ↔ f ∈ es ∧ f.bp ≠ l.block m p) :
    Leased m es' (Function.update holds p none) := by
  have hold : ∀ q k, Function.update holds p none q = some k ↔ q ≠ p ∧ holds q = some k := by
    intro q k
    by_cases hq : q = p
    · simp [hq]
    · simp [hq]
  refine ⟨?_, ?_, ?_, ?_⟩
  · intro q k hq
    exact h.power q k ((hold q k).mp hq).2
  · intro q k hq
    obtain ⟨hne, hq⟩ := (hold q k).mp hq
    obtain ⟨f, hf, hseat⟩ := h.seat q k hq
    refine ⟨f, (hes f).mpr ⟨hf, fun hbp => hne ?_⟩, hseat⟩
    exact h.alone q k p l hq hp (hseat.block.trans hbp)
  · intro f hf
    obtain ⟨hf, hne⟩ := (hes f).mp hf
    obtain ⟨q, k, hq, hblock⟩ := h.tenant f hf
    refine ⟨q, k, (hold q k).mpr ⟨fun hqp => hne ?_, hq⟩, hblock⟩
    subst hqp
    rw [hp] at hq
    rw [← hblock, Option.some.inj hq]
  · intro q k q' k' hq hq'
    exact h.alone q k q' k' ((hold q k).mp hq).2 ((hold q' k').mp hq').2

/-- An address in a block apart from all others is new. -/
theorem fresh (h : Leased m es holds) (hs : Seat m l p e) (hapart : ∀ f ∈ es, f.Apart e) :
    holds p = none := by
  cases hp : holds p with
  | none => rfl
  | some k =>
    obtain ⟨f, hf, hseat⟩ := h.seat p k hp
    have := (hseat.apart hs (hapart f hf)).2
    omega

/-- It can be added with its block. -/
theorem rent (h : Leased m es holds) (hs : Seat m l p e) (hpow : l.align.isPowerOfTwo)
    (hapart : ∀ f ∈ es, f.Apart e) (hes : ∀ f, f ∈ es' ↔ f = e ∨ f ∈ es) :
    Leased m es' (Function.update holds p (some l)) := by
  have hnew := h.fresh hs hapart
  have hold : ∀ q k, Function.update holds p (some l) q = some k ↔ q = p ∧ k = l ∨
      holds q = some k := by
    intro q k
    by_cases hq : q = p
    · subst hq
      simp [hnew, eq_comm]
    · simp [hq]
  -- no other address leads to the new block
  have hother : ∀ q k, holds q = some k → k.block m q ≠ e.bp := by
    intro q k hq hbp
    obtain ⟨f, hf, hseat⟩ := h.seat q k hq
    rw [hseat.block] at hbp
    exact (hseat.apart hs (hapart f hf)).1 hbp
  refine ⟨?_, ?_, ?_, ?_⟩
  · intro q k hq
    rcases (hold q k).mp hq with ⟨-, rfl⟩ | hq
    · exact hpow
    · exact h.power q k hq
  · intro q k hq
    rcases (hold q k).mp hq with ⟨rfl, rfl⟩ | hq
    · exact ⟨e, (hes e).mpr (.inl rfl), hs⟩
    · obtain ⟨f, hf, hseat⟩ := h.seat q k hq
      exact ⟨f, (hes f).mpr (.inr hf), hseat⟩
  · intro f hf
    rcases (hes f).mp hf with rfl | hf
    · exact ⟨p, l, (hold p l).mpr (.inl ⟨rfl, rfl⟩), hs.block⟩
    · obtain ⟨q, k, hq, hblock⟩ := h.tenant f hf
      exact ⟨q, k, (hold q k).mpr (.inr hq), hblock⟩
  · intro q k q' k' hq hq' hsame
    rcases (hold q k).mp hq with ⟨hqp, hkl⟩ | hqold
    · rcases (hold q' k').mp hq' with ⟨hqp', -⟩ | hqold'
      · rw [hqp, hqp']
      · rw [hqp, hkl] at hsame
        exact absurd (hsame.symm.trans hs.block) (hother q' k' hqold')
    · rcases (hold q' k').mp hq' with ⟨hqp', hkl'⟩ | hqold'
      · rw [hqp', hkl'] at hsame
        exact absurd (hsame.trans hs.block) (hother q k hqold)
      · exact h.alone q k q' k' hqold hqold' hsame

end Leased

/-- What a program relies on for the addresses it holds, over the blocks `es` that are allocated. -/
structure Tenanted (m : Memory) (es : List Entry) (holds : Holdings) : Prop where
  aligned : ∀ p l, holds p = some l → p % l.align = 0
  /-- The bytes that an address is for are in the payload of its block. -/
  inside : ∀ p l, holds p = some l → ∃ e ∈ es, e.bp = l.block m p ∧ e.bp ≤ p ∧
  p + l.size ≤ e.bp + (e.size - wordSize)
  /-- No two addresses are in one block, and no block is without. -/
  alone : ∀ p l q k, holds p = some l → holds q = some k → l.block m p = k.block m q → p = q
  tenant : ∀ e ∈ es, ∃ p l, holds p = some l ∧ l.block m p = e.bp
  /-- No byte is for two addresses. -/
  apart : ∀ p l q k, holds p = some l → holds q = some k → p ≠ q → p + l.size ≤ q ∨ q + k.size ≤ p
  /-- No byte of a word that has a block's address is for any address. -/
  unstashed : ∀ p l q k, holds p = some l → holds q = some k → ∀ x, k.Stash q x →
  ¬ (p ≤ x ∧ x < p + l.size)

namespace Leased

variable (h : Leased m es holds) (hdisjoint : ∀ e ∈ es, ∀ f ∈ es, e = f ∨ e.Apart f)

include h hdisjoint

/-- Two addresses, and the two blocks. -/
theorem seats (hp : holds p = some l) (hq : holds q = some k) (hne : p ≠ q) :
    ∃ e f, Seat m l p e ∧ Seat m k q f ∧ e.Apart f := by
  obtain ⟨e, he, hseat⟩ := h.seat p l hp
  obtain ⟨f, hf, hseat'⟩ := h.seat q k hq
  refine ⟨e, f, hseat, hseat', ?_⟩
  rcases hdisjoint e he f hf with heq | hapart
  · subst heq
    exact absurd (h.alone p l q k hp hq (hseat.block.trans hseat'.block.symm)) hne
  · exact hapart

theorem unstashed (hp : holds p = some l) (hq : holds q = some k) (hx : k.Stash q x) :
    ¬ (p ≤ x ∧ x < p + l.size) := by
  rintro ⟨h1, h2⟩
  by_cases hpq : p = q
  · have := hx.2.2
    omega
  · obtain ⟨e, f, hseat, hseat', hapart⟩ := h.seats hdisjoint hp hq hpq
    have hin := hseat.payload_of_range h1 h2
    have hin' := hseat'.payload_of_stash hx
    unfold Entry.Payload at hin hin'
    rcases hapart with h3 | h3 <;> omega

theorem relied : Tenanted m es holds := by
  refine ⟨?_, ?_, h.alone, h.tenant, ?_, fun p l q k hp hq x hx => h.unstashed hdisjoint hp hq hx⟩
  · intro p l hp
    obtain ⟨e, -, hseat⟩ := h.seat p l hp
    exact hseat.aligned
  · intro p l hp
    obtain ⟨e, he, hseat⟩ := h.seat p l hp
    have hroom := hseat.room
    exact ⟨e, he, hseat.block.symm, hseat.above, by omega⟩
  · intro p l q k hp hq hne
    obtain ⟨e, f, hseat, hseat', hapart⟩ := h.seats hdisjoint hp hq hne
    exact (hseat.apart hseat' hapart).2.imp Nat.le_of_lt Nat.le_of_lt

end Leased

end BoundaryTag
