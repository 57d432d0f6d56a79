/-
  BoundaryTag.Proofs.Requests — from the bytes of a request to the bytes that the arena is asked
  for.

  Roundings follow one another: to whole words, to the least block, to a chunk, to an even
  number of words. Each is the least number with its property, and the guard on requests and the
  bound on chunks leave room for all of them below the end of the word.

  Proved: for every request and every chunk size, each of these numbers is the least one and no
  sum or product on the way to it is too large for a word; growing never counts more bytes than
  a word holds, asks the arena for those bytes, and makes a free block that has room for the
  request (`requests_exact`).
-/

import BoundaryTag.Proofs.Faultless
import BoundaryTag.Proofs.Watching
import BoundaryTag.Proofs.WellFormed
import Mathlib.Order.Bounds.Basic

namespace BoundaryTag

/-! ## In machine words -/

def checkedMul (a b : Nat) : Except Fault Nat :=
  if a * b < wordLimit then .ok (a * b) else .error .overflow

/-- The steps of `blockSize`, each of which has to give a word. -/
def blockSizeInWords (request : Nat) : Except Fault (Except HeapError Nat) := do
  if request > signedMax - doubleWord then
    return .error (.requestTooLarge request)
  return .ok (max (← align (← checkedAdd request wordSize)) minBlock)

/-- The steps of `Config.chunkWords`. -/
def Config.chunkInWords (c : Config) : Except Fault Nat :=
  return max (← align (min c.chunkSize maxChunkSize)) minBlock / wordSize

/-- The steps of `Heap.growth`. -/
def Config.growthInWords (c : Config) (size : Nat) : Except Fault Nat := do
  let words ← c.chunkInWords
  return max size (← checkedMul words wordSize) / wordSize

theorem blockSizeInWords_eq (n : Nat) : blockSizeInWords n = .ok (blockSize n) := by
  by_cases hbig : n > signedMax - doubleWord
  · rw [blockSizeInWords, blockSize, if_pos hbig, if_pos hbig]
    rfl
  · have hlt : n + wordSize + wordSize < wordLimit := by
      simp only [signedMax, doubleWord, wordSize, wordLimit] at hbig ⊢
      omega
    have hadd : checkedAdd n wordSize = .ok (n + wordSize) :=
      checkedAdd_ok (Nat.lt_of_le_of_lt (Nat.le_add_right _ _) hlt)
    have halign : align (n + wordSize) = .ok (roundUp (n + wordSize)) := align_eq hlt
    simp only [blockSizeInWords, blockSize, if_neg hbig, hadd, halign, bind, Except.bind,
      pure, Except.pure]

namespace Config

theorem chunkInWords_eq (c : Config) : c.chunkInWords = .ok c.chunkWords := by
  have hle : min c.chunkSize maxChunkSize ≤ 9223372036854775800 := Nat.min_le_right _ _
  have halign : align (min c.chunkSize maxChunkSize) =
      .ok (roundUp (min c.chunkSize maxChunkSize)) :=
    align_eq (by simp only [wordSize, wordLimit]; omega)
  simp only [chunkInWords, halign, bind, Except.bind, pure, Except.pure]
  rfl

/-- A chunk can be counted. -/
theorem chunkWords_le (c : Config) : c.chunkWords * 8 ≤ 9223372036854775800 :=
  c.chunkWords_mul ▸ c.chunkBytes_le

theorem growthInWords_eq (c : Config) (size : Nat) :
    c.growthInWords size = .ok (Heap.growth c size) := by
  have hle := c.chunkWords_le
  have hmul : checkedMul c.chunkWords wordSize = .ok (c.chunkWords * wordSize) :=
    if_pos (by simp only [wordSize, wordLimit]; omega)
  simp only [growthInWords, chunkInWords_eq, hmul, bind, Except.bind, pure,
    Except.pure, Heap.growth]

/-- The words by which a heap with these settings grows, and the bytes that it has to get: a
    chunk, or the block for a request of `n` bytes if that is more. -/
inductive Asks (c : Config) (n : Nat) : (words need : Nat) → Prop
  | chunk : c.Asks n c.chunkWords (8 * c.chunkWords)
  | request {size : Nat} : blockSize n = .ok size →
      c.Asks n (max size (8 * c.chunkWords) / 8) (max size (8 * c.chunkWords))

/-- What is asked for is whole words, a least block at least, and far from the end of the word. -/
theorem Asks.bounds {c : Config} {n words need : Nat} (h : c.Asks n words need) :
    need = 8 * words ∧ 4 ≤ words ∧ need ≤ 9223372036854775800 := by
  have hle := c.chunkWords_le
  have h4 := c.chunkWords_bounds.2
  cases h with
  | chunk => exact ⟨rfl, h4, by omega⟩
  | @request size hsize =>
    obtain ⟨h8, -, -, hmax⟩ := Heap.blockSize_ok hsize
    have hmax : size ≤ 9223372036854775800 := hmax
    omega

end Config

/-! ## Growing by bytes -/

namespace Heap

variable {A : Type} [Arena A]

/-- What `grow` does once it has counted the bytes. -/
def growBy (bytes : Nat) : HeapM A Nat := do
  let bp ← claimOrTell bytes
  let r ← region
  r.writeFree bp bytes (← r.tag bp).prevAlloc
  r.writeAllocated (← r.above bp) 0 false
  log (.extended bytes r.high)
  Store.coalesce r bp

theorem grow_eq {words : Nat} (hlt : (words + words % 2) * 8 < wordLimit) (h : Heap A) :
    grow words h = growBy ((words + words % 2) * 8) h := by
  have hadd : checkedAdd words (words % 2) = .ok (words + words % 2) := checkedAdd_ok (by omega)
  simp only [grow, growBy, HeapM.bind_apply, HeapM.lift_except, hadd, wordSize,
    Nat.not_le.mpr hlt, if_false]

/-- The heaps that grow: one that has just been founded, and those that programs come to. -/
inductive Grows [LawfulArena A] : Heap A → Prop
  | founded {arena : A} {memory : Memory} {config : Config} {h : Heap A} : LawfulArena.Sane arena →
      found (unmade arena memory config) = .ok () h → Grows h
  | run {arena : A} {memory : Memory} {config : Config} {past : List (Call × Answer)}
      {w : World A} : LawfulArena.Sane arena →
      Run arena memory config past w → Grows w.heap

/-- The arena is asked once, for these bytes. If it gives them, there is a free block with
    as many as were needed. -/
structure Asked (h : Heap A) (words need bytes : Nat) : Prop where
  denied : ∀ e a, Arena.extend bytes h.arena = .error e a →
    ∃ g, grow words h.watched = .error (.refused (.arena e)) g ∧
    grow words h = .error (.refused (.arena e)) g.unwatched ∧ g.arena = ⟨a, [bytes]⟩
  granted : ∀ start a, Arena.extend bytes h.arena = .ok start a →
  ∃ b g ts q idx, grow words h.watched = .ok b g ∧
    grow words h = .ok b g.unwatched ∧ g.arena = ⟨a, [bytes]⟩ ∧ g.unwatched.WellFormed ts q idx ∧
    ∃ t ∈ ts, t.bp = b ∧ t.tag.alloc = false ∧ need ≤ t.tag.size ∧ minBlock ≤ t.tag.size

variable [LawfulArena A] {h : Heap A}

theorem Grows.laid (hg : Grows h) : ∃ row idx, Laid h row idx := by
  cases hg with
  | founded hs hrun =>
    obtain ⟨start, a, hsite, rfl⟩ := found_inv hrun
    exact ⟨_, _, hsite.laid hs.settles _ _ _⟩
  | run hs hr =>
    obtain ⟨row, idx, hw⟩ := hr.sound hs
    exact ⟨row, idx, hw.laid⟩

theorem Laid.asked {row : List Tile} {idx : Index} (hl : Laid h row idx) {words : Nat}
    (h4 : 4 ≤ words) (hlt : (words + words % 2) * 8 < wordLimit) :
    h.Asked words (8 * words) ((words + words % 2) * 8) := by
  have hw : words + 1 < wordLimit := by omega
  constructor
  · intro e a hx
    have hasked : Arena.extend ((words + words % 2) * 8) h.watched.arena =
        .error e ⟨a, [(words + words % 2) * 8]⟩ := by
      rw [Watched.extend_apply]
      exact hx ▸ rfl
    obtain ⟨g, hrun, -, harena⟩ := grow_denied hl.watched.sane hw hlt hasked
    have hrun' := Unseen.grow words h.watched
    rw [hrun] at hrun'
    exact ⟨g, hrun, hrun', harena⟩
  · intro start a hx
    have hasked : Arena.extend ((words + words % 2) * 8) h.watched.arena =
        .ok start ⟨a, [(words + words % 2) * 8]⟩ := by
      rw [Watched.extend_apply]
      exact hx ▸ rfl
    obtain ⟨b, g, L, q, row', idx', hrun, harena, hl', -, -, -, hmerged, -⟩ :=
      grow_met hl.watched hw h4 hlt hasked
    have hrun' := Unseen.grow words h.watched
    rw [hrun] at hrun'
    obtain ⟨t, ht, rfl, hfree, hbp, hstop⟩ := hmerged.mem
    obtain ⟨ts, q', rfl, hwell⟩ := hl'.unwatched.readOff
    have hroom : 8 * words ≤ t.tag.size := by
      simp only [Tile.stop] at *
      omega
    refine ⟨t.bp, g, ts, q', idx', hrun, hrun', harena, hwell, t, ?_, rfl, hfree, hroom,
      by simp only [minBlock]; omega⟩
    rcases List.mem_append.mp ht with ht | ht
    · exact ht
    · rw [List.mem_singleton.mp ht] at hfree
      cases hfree

end Heap

/-- For every request and all settings: a request is refused just when its block could not be
    counted, and else the block is the least one that holds it; a chunk is the least one with
    its bounds; and growing for one of them asks for the least multiple of two words that is as
    much, which is counted without overflow, and gives a free block that is large enough. -/
theorem requests_exact {A : Type} [Arena A] [LawfulArena A] (n : Nat) (c : Config) :
    ((∃ e, blockSize n = .error e) ↔ 2 ^ 63 - 1 - 16 < n) ∧
    (∀ size, blockSize n = .ok size → IsLeast {b | b % 8 = 0 ∧ max (n + 8) 32 ≤ b} size) ∧
    IsLeast {b | b % 8 = 0 ∧ max (min c.chunkSize (2 ^ 63 - 8)) 32 ≤ b} (8 * c.chunkWords) ∧
    blockSizeInWords n = .ok (blockSize n) ∧
    (∀ size, c.growthInWords size = .ok (Heap.growth c size)) ∧
    ∀ words need, c.Asks n words need → ∃ bytes, IsLeast {b | b % 16 = 0 ∧ need ≤ b} bytes ∧
      bytes < wordLimit ∧
      (∀ h : Heap A, Heap.grow words h = Heap.growBy bytes h) ∧ ∀ h : Heap A, h.Grows →
      h.Asked words need bytes := by
  refine ⟨?_, ?_, ?_, blockSizeInWords_eq n, c.growthInWords_eq, ?_⟩
  · constructor
    · intro herr
      obtain ⟨e, herr⟩ := herr
      refine Nat.lt_of_not_le fun hle => ?_
      obtain ⟨size, hsize, -⟩ := blockSize_eq hle
      rw [hsize] at herr
      cases herr
    · intro hbig
      exact ⟨_, blockSize_refused hbig⟩
  · intro size hsize
    rcases Nat.lt_or_ge (signedMax - doubleWord) n with hbig | hle
    · rw [blockSize_refused hbig] at hsize
      cases hsize
    · obtain ⟨size', hsize', h8, h32, hroom, hleast⟩ := blockSize_eq hle
      obtain rfl := Except.ok.inj (hsize'.symm.trans hsize)
      exact ⟨⟨h8, max_le hroom h32⟩,
        fun b hb => hleast b hb.1 (le_of_max_le_right hb.2) (le_of_max_le_left hb.2)⟩
  · obtain ⟨h8, h32, hmin, hleast⟩ := c.chunkBytes_least
    rw [Nat.mul_comm, c.chunkWords_mul]
    exact ⟨⟨h8, max_le hmin h32⟩,
      fun b hb => hleast b hb.1 (le_of_max_le_right hb.2) (le_of_max_le_left hb.2)⟩
  · intro words need hasks
    obtain ⟨rfl, h4, hle⟩ := hasks.bounds
    have hlt : (words + words % 2) * 8 < wordLimit := by simp only [wordLimit]; omega
    refine ⟨(words + words % 2) * 8, ⟨⟨by omega, by omega⟩, ?_⟩, hlt, Heap.grow_eq hlt, ?_⟩
    · intro b hb
      have h16 := hb.1
      have hroom := hb.2
      omega
    · intro h hg
      obtain ⟨row, idx, hl⟩ := hg.laid
      exact hl.asked h4 hlt

/-- The block for 300 bytes has 312, for which the arena is asked for 320. The largest request
    that is not refused is met by the largest number of whole words that is a signed word. -/
theorem requests_exact_page :
    blockSize 300 = .ok 312 ∧ (∃ e, blockSize 9223372036854775792 = .error e) ∧
    IsLeast {b | b % 8 = 0 ∧ max (9223372036854775791 + 8) 32 ≤ b} 9223372036854775800 ∧
    ∃ w, Run page .blank {} [(.allocate 24, .ok (some 4128))] w ∧ w.heap.Asked 39 312 320 := by
  obtain ⟨-, -, -, -, -, hasks⟩ := requests_exact (A := FixedArena) 300 {}
  obtain ⟨bytes, hleast, -, -, hasked⟩ :=
    hasks 39 312 (.request (show blockSize 300 = .ok 312 from rfl))
  obtain rfl : bytes = 320 :=
    hleast.unique ⟨by decide, fun b hb => by have h16 := hb.1; have hroom := hb.2; omega⟩
  obtain ⟨w, hr, -, -⟩ := Run.of_trial page .blank {} [.allocate 24] [.ok (some 4128)]
      (fun h => h.config.checkEachOp) false
    (by decide +kernel) (by decide +kernel)
  refine ⟨rfl, (requests_exact (A := FixedArena) 9223372036854775792 {}).1.mpr (by decide),
    (requests_exact (A := FixedArena) 9223372036854775791 {}).2.1 _ rfl, w, hr,
    hasked w.heap (.run (show LawfulArena.Sane page from trivial) hr)⟩

end BoundaryTag
