/-
  BoundaryTag.Proofs.Accounting — a heap's statistics against what the program holds and what
  the lists hold.

  Three parties count the blocks of a heap: the statistics walk over the headers, the program
  keeps the addresses that it was given, and the free lists thread through the memory. In a laid
  heap all three count one row of blocks, which has no gap from the prologue to the high end.

  Proved: after any run the three agree in blocks and in bytes, and with the words of the heap
  itself and what was handed out before it, the bytes make up the arena (`Run.balanced`).
-/

import BoundaryTag.Proofs.Faultless
import Mathlib.Algebra.BigOperators.Group.Finset.Basic
import Mathlib.Algebra.GroupWithZero.Nat

namespace BoundaryTag

open Audit

/-- These statistics count the blocks that the program holds, a header more than is usable of
    each, and those that the free lists hold. Together with four words of the heap and the bytes
    before it, they make up the arena. -/
structure World.Balanced {A : Type} [Arena A] (w : World A) (before : Nat) (s : Stats)
    (usable : Nat → Nat) (filed : List Entry) : Prop where
  allocatedBlocks : s.allocatedBlocks = w.holds.card
  allocatedBytes : s.allocatedBytes = ∑ p ∈ w.holds, (usable p + 8)
  freeBlocks : s.freeBlocks = filed.length
  freeBytes : s.freeBytes = (filed.map Entry.size).sum
  arenaBytes : s.arenaBytes = Arena.length w.heap.arena
  total : s.allocatedBytes + s.freeBytes + 32 + before = s.arenaBytes

section Rows

variable {r : Region} {m : Memory} {first a : Nat} {p : Bool} {row : List Tile} {t : Tile}
  {ts : List Tile}

theorem live_cons_alloc (ha : t.tag.alloc = true) (h32 : 32 ≤ t.tag.size) :
    live (t :: ts) = t.entry :: live ts := by
  rw [live, held_cons_alloc ha,
    List.filter_cons_of_pos (by simp only [Tile.entry, bne_iff_ne]; omega), live]

theorem live_cons_free (hfree : t.tag.alloc = false) : live (t :: ts) = live ts := by
  rw [live, held_cons_free hfree, live]

/-- The tally of a row, kind by kind. -/
theorem Row.tallied_eq {high : Nat} (h : Row high a p ts) (s : Stats) : tallied s ts =
    { arenaBytes := s.arenaBytes
      allocatedBlocks := s.allocatedBlocks + (live ts).length
      allocatedBytes := s.allocatedBytes + ((live ts).map Entry.size).sum
      freeBlocks := s.freeBlocks + (vacant ts).length
      freeBytes := s.freeBytes + ((vacant ts).map Entry.size).sum } := by
  induction h generalizing s with
  | epilogue p => rfl
  | @block a p tag ts _ _ h32 _ ih =>
    rw [tallied_cons h32, ih, Stats.count]
    cases ha : tag.alloc with
    | true =>
      rw [live_cons_alloc ha h32, vacant_cons_alloc ha]
      simp [Tile.entry, Nat.add_assoc, Nat.add_comm 1]
    | false =>
      rw [live_cons_free ha, vacant_cons_free ha]
      simp [Tile.entry, Nat.add_assoc, Nat.add_comm 1]

theorem Tiled.nodup_live (h : Tiled r m first row) : ((live row).map Entry.bp).Nodup :=
  (h.nodup_held.filter _).map_on fun _ he _ hf => h.live_inj he hf

theorem Tiled.nodup_vacant_bp (h : Tiled r m first row) : ((vacant row).map Entry.bp).Nodup := by
  refine h.nodup_vacant.map_on fun e he f hf hbp => ?_
  obtain ⟨t, ht, -, rfl⟩ := mem_vacant.mp he
  obtain ⟨u, hu, -, rfl⟩ := mem_vacant.mp hf
  rw [h.row.eq_of_bp_eq ht hu hbp]

end Rows

section Worlds

variable {A : Type} [Arena A] [LawfulArena A] {w : World A} {row : List Tile} {idx : Index}

/-- What the program holds, in the order of the blocks. -/
theorem World.Sound.holds_eq (hw : w.Sound row idx) :
    w.holds = ((live row).map Entry.bp).toFinset := by
  ext p
  rw [hw.holds, List.mem_toFinset, List.mem_map]

theorem World.Sound.card_holds (hw : w.Sound row idx) : w.holds.card = (live row).length := by
  rw [hw.holds_eq, List.toFinset_card_of_nodup hw.laid.tiled.nodup_live, List.length_map]

/-- Usable bytes and a header make up the block. -/
theorem World.Sound.sum_usable (hw : w.Sound row idx) :
    ∑ p ∈ w.holds, ((w.heap.tagAt p).size - 8 + 8) = ((live row).map Entry.size).sum := by
  rw [hw.holds_eq, List.sum_toFinset _ hw.laid.tiled.nodup_live, List.map_map]
  congr 1
  refine List.map_congr_left fun e he => ?_
  obtain ⟨t, -, -, rfl, h32⟩ := hw.laid.tiled.mem_live.mp he
  have hsize := hw.laid.tagAt_size he
  simp only [Function.comp_apply, Tile.entry] at hsize ⊢
  omega

/-- The lists hold the free blocks, each once. -/
theorem Heap.Laid.perm_filed {h : Heap A} (hl : h.Laid row idx) :
    ((List.range bucketCount).flatMap idx).Perm (vacant row) :=
  hl.sound.filed.covers.perm hl.tiled.nodup_vacant hl.sound.filed.files.nodup

/-- What the statistics, the program and the free lists count is the same, in blocks and in
    bytes. -/
theorem Run.balanced {arena : A} {memory : Memory} {config : Config} {past : List (Call × Answer)}
    (hs : LawfulArena.Sane arena) (hr : Run arena memory config past w) : ∃ s usable idx,
      Heap.stats w.heap = .ok s w.heap ∧
      (∀ p ∈ w.holds, Heap.usableSize p w.heap = .ok (some (usable p)) w.heap) ∧
      (∀ c < bucketCount, Chained w.heap.bounds w.heap.store.memory
        (w.heap.store.buckets.head c) (idx c)) ∧
      (((List.range bucketCount).flatMap idx).map Entry.bp).Nodup ∧
      w.Balanced (Arena.length arena) s usable ((List.range bucketCount).flatMap idx) := by
  obtain ⟨row, idx, hw⟩ := hr.sound hs
  have hrow := hw.laid.tiled.row
  have hperm := hw.laid.perm_filed
  refine ⟨_, fun p => (w.heap.tagAt p).size - 8, idx, Heap.stats_laid hw.laid, ?_,
    fun c _ => hw.laid.sound.filed.files.chained c,
    (hperm.map _).nodup_iff.mpr hw.laid.tiled.nodup_vacant_bp, ?_⟩
  · intro p hp
    obtain ⟨e, he, rfl⟩ := (hw.holds p).mp hp
    simp only [Heap.usableSize_live hw.laid he, hw.laid.tagAt_size he]
  · have htotal := (hrow.tallied_bytes { arenaBytes := w.heap.bounds.span }).2
    rw [hrow.tallied_eq] at htotal ⊢
    obtain ⟨hlow, hle⟩ := hr.low hs
    have hprologue := (hr.founded hs).prologue
    refine ⟨?_, ?_, ?_, ?_, rfl, ?_⟩
    · simp [hw.card_holds]
    · simp [hw.sum_usable]
    · simp [hperm.length_eq]
    · simp [(hperm.map Entry.size).sum_eq]
    · simp only [Heap.firstBlock, hprologue, doubleWord, Heap.bounds, Region.span,
        Arena.length] at htotal hlow ⊢
      omega

/-- A page whose first words were handed out before. -/
def sharedPage : FixedArena := ⟨4096, 4096, 64, page.base_aligned,
      page.base_add_capacity_lt, by decide⟩

/-- A block that moved, and a request that was turned down. -/
theorem Run.balanced_page : ∃ w usable idx, Run sharedPage .blank {}
      [(.allocate 56, .ok (some 4192)), (.allocate 100, .ok (some 4256)),
      (.reallocate 4192 300, .ok (some 4368)), (.allocate 9999, .ok none)] w ∧
      w.holds = {4256, 4368} ∧
    Heap.stats w.heap = .ok ⟨672, 2, 424, 2, 152⟩ w.heap ∧
    (∀ p ∈ w.holds, Heap.usableSize p w.heap = .ok (some (usable p)) w.heap) ∧
    w.Balanced 64 ⟨672, 2, 424, 2, 152⟩ usable ((List.range bucketCount).flatMap idx) := by
  obtain ⟨w, hr, hholds, hlook⟩ := Run.of_trial sharedPage .blank {}
      [.allocate 56, .allocate 100, .reallocate 4192 300, .allocate 9999]
    [.ok (some 4192), .ok (some 4256), .ok (some 4368),
      .ok none] (Heap.answer? Heap.stats) (some ⟨672, 2, 424, 2, 152⟩)
    (by decide +kernel) (by decide +kernel)
  obtain ⟨s, usable, idx, hstats, husable, -, -, hbalanced⟩ :=
    Run.balanced (A := FixedArena) trivial hr
  rw [Heap.answer?, hstats] at hlook
  obtain rfl := Option.some.inj hlook
  exact ⟨w, usable, idx, hr, hholds.trans (by decide), hstats, husable, hbalanced⟩

end Worlds

end BoundaryTag
