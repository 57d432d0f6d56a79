/-
  BoundaryTag.Proofs.Described — what a heap is that the audit accepts.

  `Described` says of memory and buckets what the audit's documentation says: the prologue is
  intact, headers lead from the first block to the epilogue and know about each other, free
  blocks have their footers and do not touch, and the lists from the heads are linked both ways,
  hold free headers of their classes, and hold as many as there are free blocks. It does not say
  that the lists hold just those blocks, which the audit does not find out.

  The audit walks twice and stops at the first thing that is wrong. That no list runs in
  circles or into another one it never asks: the links back, the classes and the number of
  members leave no other way.

  Proved: over any memory and any buckets the audit accepts a heap if and only if it is as
  described, the links of every free block are addresses, and the high end can be rounded up;
  and its tally is then the one of the unchecked count (`Run.validate_iff`).
-/

import BoundaryTag.Proofs.Faultless
import BoundaryTag.Proofs.Strays
import BoundaryTag.Proofs.WellFormed

namespace BoundaryTag

namespace Audit

open Checking

variable {r : Region} {m : Memory} {row ts : List Tile} {first bp c : Nat} {p q : Bool}
  {es : List Entry} {prev : Option Nat} {lastSize : Nat}

/-! ## Links that can be read -/

theorem decodeLink_readable {offset : Nat} (hlow : r.low < wordLimit) :
    (∃ o, r.decodeLink offset = .ok o) ↔ r.low + offset < wordLimit := by
  constructor
  · rintro ⟨o, ho⟩
    by_contra hbig
    have h0 : offset ≠ 0 := fun h0 => hbig (h0 ▸ hlow)
    rw [Region.decodeLink, if_neg h0, checkedAdd, if_neg hbig] at ho
    cases ho
  · exact fun hlt => ⟨_, Region.decodeLink_eq hlt⟩

/-- The links of a block are read if both are addresses. -/
theorem links_readable (hlow : r.low ≤ bp) (hin : bp + 16 ≤ r.high) (hhigh : r.high < wordLimit) :
    (∃ links, r.links bp m = .ok links) ↔ r.low + m.word bp < wordLimit ∧
    r.low + m.word (bp + 8) < wordLimit := by
  have hnext : r.nextLink bp m = r.decodeLink (m.word bp) := by
    simp only [Region.nextLink, Reading.bind_apply,
      Region.read_eq hlow (show bp + 8 ≤ r.high by omega), Except.bind, Reading.lift_apply]
  have hprev : r.prevLink bp m = r.decodeLink (m.word (bp + 8)) := by
    simp only [Region.prevLink, Reading.bind_apply,
      Reading.lift_apply, wordSize, checkedAdd_ok (show bp + 8 < wordLimit by omega), Except.bind,
      Region.read_eq (show r.low ≤ bp + 8 by omega) (show bp + 8 + 8 ≤ r.high by omega)]
  rw [← decodeLink_readable (show r.low < wordLimit by omega),
    ← decodeLink_readable (show r.low < wordLimit by omega), ← hnext, ← hprev]
  constructor
  · rintro ⟨⟨next, prev⟩, hlinks⟩
    obtain ⟨hn, hp⟩ := Region.links_ok hlinks
    exact ⟨⟨next, hn⟩, prev, hp⟩
  · rintro ⟨⟨next, hn⟩, prev, hp⟩
    refine ⟨⟨next, prev⟩, ?_⟩
    simp only [Region.links, Reading.bind_apply, hn, hp, Except.bind]
    rfl

/-! ## The blocks -/

theorem Seen.whole {t : Tile} (h : Seen r m p t) : t.tag.size % 8 = 0 := by
  obtain ⟨-, -, htag⟩ := Region.tag_ok.mp h.tag
  rw [htag]
  exact Tag.decode_size_mod _

/-- What the walk sees are blocks from `bp` to the high end, and the epilogue there. -/
theorem Swept.spans (h : Swept r m bp p row) : ∃ ts q, row = ts ++ [⟨r.high, ⟨0, q, true⟩⟩] ∧
    Spans bp p ts r.high q ∧
    m.word (r.high - 8) = Tag.encode ⟨0, q, true⟩ ∧ ∀ t ∈ ts, Seen r m t.tag.prevAlloc t := by
  induction h with
  | @epilogue p _ _ _ hword =>
    exact ⟨[], p, rfl, ⟨rfl, rfl⟩, hword, fun t ht => absurd ht List.not_mem_nil⟩
  | @block p t _ hseen _ ih =>
    obtain ⟨ts, q, rfl, hspan, hword, hall⟩ := ih
    refine ⟨t :: ts, q, rfl, ⟨rfl, hseen.prev, hseen.whole, hseen.room, hspan⟩, hword,
      fun u hu => ?_⟩
    rcases List.mem_cons.mp hu with rfl | hu
    · exact hseen.prev ▸ hseen
    · exact hall u hu

theorem Swept.of_spans (h8 : bp % 8 = 0) (hlow : r.low + 8 ≤ bp) (hhigh : r.high + 8 < wordLimit)
    (hspan : Spans bp p ts r.high q) (hword : m.word (r.high - 8) = Tag.encode ⟨0, q, true⟩)
    (hall : ∀ t ∈ ts, Seen r m t.tag.prevAlloc t) :
    Swept r m bp p (ts ++ [⟨r.high, ⟨0, q, true⟩⟩]) := by
  induction ts generalizing bp p with
  | nil =>
    obtain ⟨rfl, rfl⟩ := hspan
    exact .epilogue h8 hhigh hlow hword
  | cons t ts ih =>
    obtain ⟨rfl, rfl, ht8, -, hspan⟩ := hspan
    have hrest := ih (by simp only [Tile.stop]; omega)
        (by simp only [Tile.stop]; omega) hspan fun u hu => hall u (List.mem_cons_of_mem _ hu)
    exact .block (hall t List.mem_cons_self) hrest

/-- The unchecked count of blocks that the walk sees is its tally. -/
theorem Swept.tallyFrom (h : Swept r m bp p row) (s : Stats) :
    Stats.tallyFrom r bp s m = .ok (tallied s row) := by
  induction h generalizing s with
  | epilogue =>
    rw [Stats.tallyFrom, if_neg (Nat.lt_irrefl _)]
    rfl
  | @block p t ts hseen hrest ih =>
    have hroom := hseen.room
    have hstop := hseen.stop_le
    have hlt := hrest.high_lt
    simp only [Tile.stop] at hstop
    rw [Stats.tallyFrom, if_pos (by omega), tallied_cons hroom, ← ih]
    simp only [Reading.bind_apply, hseen.tag, Except.bind]
    rw [if_neg (by omega), if_pos (by omega)]
    rfl

/-- Where no two free blocks touch, each comes after an allocated one. -/
theorem spaced_of_isChain {a b : Nat} (h : Spans a true ts b q)
    (hchain : ts.IsChain fun t u => t.tag.alloc = true ∨ u.tag.alloc = true) :
    Spaced ts := by
  suffices ∀ {a p}, Spans a p ts b q → (∀ t ∈ ts.head?, t.tag.alloc = false → p = true) →
    Spaced ts from this h fun _ _ _ => rfl
  clear h
  intro a p hspan hhead
  induction ts generalizing a p with
  | nil => exact fun t ht => absurd ht List.not_mem_nil
  | cons t ts ih =>
    obtain ⟨-, hprev, -, -, hspan⟩ := hspan
    have hnext : ∀ u ∈ ts.head?, u.tag.alloc = false → t.tag.alloc = true := by
      intro u hu hfree
      cases ts with
      | nil => cases hu
      | cons v vs =>
        obtain rfl := Option.some.inj hu
        exact hchain.rel.resolve_right fun halloc => by rw [hfree] at halloc; cases halloc
    intro u hu hfree
    rcases List.mem_cons.mp hu with rfl | hu
    · exact hprev.trans (hhead _ rfl hfree)
    · exact ih hchain.tail hspan hnext u hu hfree

/-! ## The lists -/

/-- A header that a list of the class `c` may hold. -/
structure Member (r : Region) (m : Memory) (first c : Nat) (e : Entry) : Prop where
  first_le : first ≤ e.bp
  lt_high : e.bp < r.high
  aligned : e.bp % 8 = 0
  /-- The word below the address is the header of a free block. -/
  free : (Tag.decode (m.word (e.bp - 8))).alloc = false
  size : (Tag.decode (m.word (e.bp - 8))).size = e.size
  room : 32 ≤ e.size
  stop_le : e.bp + e.size - 8 ≤ r.high
  classed : classOf e.size = .ok c

theorem Met.member {next : Option Nat} {e : Entry} (h : Met r m first c prev next lastSize e) :
    Member r m first c e := by
  obtain ⟨tag, htag, hfree, hsize⟩ := h.tag
  obtain ⟨-, -, rfl⟩ := Region.tag_ok.mp htag
  have hroom := h.room
  have hstop := h.stop_le
  exact ⟨h.first_le, h.lt_high, h.aligned, hfree, hsize, hroom, by omega,
    by rw [classOf, if_pos hroom, h.classed]⟩

theorem Member.met {next : Option Nat} {e : Entry} (h : Member r m first c e)
    (hlow : r.low + 8 ≤ first) (hhigh : r.high < wordLimit)
    (hsorted : isExact c = false → lastSize ≤ e.size) (hlinks : r.links e.bp m = .ok ⟨next, prev⟩) :
    Met r m first c prev next lastSize e := by
  have hfirst := h.first_le
  have hlt := h.lt_high
  have hroom := h.room
  have hstop := h.stop_le
  have hclass : sizeClass e.size = c := by
    have hclassed := h.classed
    rw [classOf, if_pos hroom] at hclassed
    exact Except.ok.inj hclassed
  have htag := Region.tag_eq (m := m) (show r.low + 8 ≤ e.bp by omega) (show e.bp ≤ r.high by omega)
  exact ⟨hfirst, hlt, h.aligned, by omega, ⟨_, htag, h.free, h.size⟩, hroom, by omega, hclass,
    hsorted, hlinks⟩

/-- The walk meets a list if all of it may be held, is linked both ways, and ascends where it
    should. -/
theorem listed_iff (hlow : r.low + 8 ≤ first) (hhigh : r.high < wordLimit) :
    Listed r m first c prev lastSize es ↔
    (∀ e ∈ es, Member r m first c e) ∧
    (∀ pre e post, es = pre ++ e :: post →
      r.links e.bp m = .ok ⟨firstOr post none, lastOr prev pre⟩) ∧
    (isExact c = false → (∀ e ∈ es, lastSize ≤ e.size) ∧
      es.Pairwise fun e f => e.size ≤ f.size) := by
  induction es generalizing prev lastSize with
  | nil =>
    refine iff_of_true trivial ⟨fun e he => absurd he List.not_mem_nil, fun pre e post hsplit => ?_,
      fun _ => ⟨?_, .nil⟩⟩
    · simp at hsplit
    · exact fun e he => absurd he List.not_mem_nil
  | cons e es ih =>
    rw [Listed, ih]
    constructor
    · rintro ⟨hmet, hmembers, hlinks, hsorted⟩
      refine ⟨fun f hf => ?_, fun pre f post hsplit => ?_, fun hex => ⟨fun f hf => ?_, ?_⟩⟩
      · rcases List.mem_cons.mp hf with rfl | hf
        · exact hmet.member
        · exact hmembers f hf
      · cases pre with
        | nil =>
          obtain ⟨rfl, rfl⟩ := List.cons.inj hsplit
          exact hmet.links
        | cons g pre =>
          obtain ⟨rfl, hrest⟩ := List.cons.inj hsplit
          exact hlinks pre f post hrest
      · rcases List.mem_cons.mp hf with rfl | hf
        · exact hmet.ascending hex
        · exact Nat.le_trans (hmet.ascending hex) ((hsorted hex).1 f hf)
      · exact List.pairwise_cons.mpr (hsorted hex)
    · rintro ⟨hmembers, hlinks, hsorted⟩
      refine ⟨?_, fun f hf => hmembers f (List.mem_cons_of_mem _ hf), fun pre f post hsplit => ?_,
        fun hex => ?_⟩
      · exact (hmembers e List.mem_cons_self).met hlow hhigh
          (fun hex => (hsorted hex).1 e List.mem_cons_self) (hlinks [] e es rfl)
      · exact hlinks (e :: pre) f post (by rw [hsplit]; rfl)
      · exact List.pairwise_cons.mp (hsorted hex).2

end Audit

section Heaps

variable {A : Type} [Arena A] {h : Heap A} {s : Stats} {ts : List Tile} {q : Bool} {lists : Index}

namespace Heap

/-- What the audit checks, as a whole: the heap has the blocks `ts` and an epilogue that says
    of the last of them whether it is allocated, as `q` does, and following the next links
    from the heads gives `lists`. -/
structure Described (h : Heap A) (ts : List Tile) (q : Bool) (lists : Index) : Prop where
  prologue : h.store.memory.word (h.prologue - 8) = Tag.encode ⟨16, true, true⟩ ∧
    h.store.memory.word h.prologue = Tag.encode ⟨16, true, true⟩
  /-- The blocks lie back to back from the first one up to the high end, in sizes of at
      least the least one, and each knows whether its predecessor is allocated. That of the
      first is the prologue. -/
  tiles : Spans h.firstBlock true ts h.bounds.high q
  aligned : ∀ t ∈ ts, t.bp % 8 = 0
  headers : ∀ t ∈ ts, h.tagAt t.bp = t.tag
  epilogue : h.store.memory.word (h.bounds.high - 8) = Tag.encode ⟨0, q, true⟩
  footers : ∀ t ∈ ts, t.tag.alloc = false →
    (Tag.decode (h.store.memory.word (t.stop - 16))).size = t.tag.size ∧
    (Tag.decode (h.store.memory.word (t.stop - 16))).alloc = false
  apart : ts.IsChain fun t u => t.tag.alloc = true ∨ u.tag.alloc = true
  heads : ∀ c < bucketCount, h.store.buckets.head c = firstOr (lists c) none
  /-- The next link of each member names the member behind it, the other one the member before
      it. -/
  links : ∀ c < bucketCount, ∀ pre e post, lists c = pre ++ e :: post →
    h.bounds.links e.bp h.store.memory = .ok ⟨firstOr post none, lastOr none pre⟩
  members : ∀ c < bucketCount, ∀ e ∈ lists c, Audit.Member h.bounds h.store.memory h.firstBlock c e
  distinct : ∀ c < bucketCount, ((lists c).map Entry.bp).Nodup
  ascending : ∀ c < bucketCount, isExact c = false → (lists c).Pairwise fun e f => e.size ≤ f.size
  /-- There are as many members as free blocks. -/
  count : ((List.range bucketCount).flatMap lists).length = (vacant ts).length

/-- The links of the free blocks are addresses, or none. -/
def Linkable (h : Heap A) (ts : List Tile) : Prop := ∀ t ∈ ts, t.tag.alloc = false →
  h.bounds.low + h.store.memory.word t.bp < wordLimit ∧
  h.bounds.low + h.store.memory.word (t.bp + 8) < wordLimit

/-- Where a heap lies in its arena. -/
structure Placed (h : Heap A) : Prop where
  low_aligned : h.bounds.low % 8 = 0
  low_le : h.bounds.low + 32 ≤ h.firstBlock
  aligned : h.firstBlock % 8 = 0
  le_high : h.firstBlock ≤ h.bounds.high

theorem Placed.region (hp : h.Placed) : region h = .ok h.bounds h :=
  region_eq (Nat.le_trans (Nat.le_of_add_right_le hp.low_le) hp.le_high) hp.low_aligned

/-- The walk sees the blocks of a heap that is as described. -/
theorem Described.seen (hd : h.Described ts q lists) (hp : h.Placed)
    (hhigh : h.bounds.high + 8 < wordLimit) (hlink : h.Linkable ts) :
    ∀ t ∈ ts, Audit.Seen h.bounds h.store.memory t.tag.prevAlloc t := by
  intro t ht
  obtain ⟨hfirst, hstop, -, hroom⟩ := hd.tiles.bounds ht
  have hlow := hp.low_le
  have hbp : t.bp + t.tag.size = t.stop := rfl
  have htag : h.bounds.tag t.bp h.store.memory = .ok t.tag := by
    rw [Region.tag_eq (by omega) (by omega)]
    exact congrArg _ (hd.headers t ht)
  refine ⟨hd.aligned t ht, by omega, htag, hroom, hstop, rfl, fun hfree => ⟨?_, ?_, ?_⟩⟩
  · exact Audit.spaced_of_isChain hd.tiles hd.apart t ht hfree
  · exact ⟨_, Region.footerTag_eq htag hroom (by omega) (by omega) (by omega),
      hd.footers t ht hfree⟩
  · exact (Audit.links_readable (by omega) (by omega) (by omega)).mpr (hlink t ht hfree)

/-- The audit accepts a heap that is as described, and counts what the unchecked count does. -/
theorem Described.validate (hd : h.Described ts q lists) (hp : h.Placed)
    (hhigh : h.bounds.high + 8 < wordLimit) (hlink : h.Linkable ts) (hs : stats h = .ok s h) :
    validate h = .ok (.ok s) h := by
  have hlow := hp.low_le
  have hle := hp.le_high
  have hfirst : h.firstBlock = h.prologue + 16 := rfl
  have hrow := Audit.Swept.of_spans hp.aligned (by omega) hhigh hd.tiles hd.epilogue
      (hd.seen hp hhigh hlink)
  have hlists : Audit.Lists h.bounds h.store.memory h.store.buckets h.firstBlock lists
      (List.range bucketCount) := by
    intro c hc
    have hc := List.mem_range.mp hc
    refine ⟨hd.heads c hc,
      (Audit.listed_iff (by omega) (by omega)).mpr ⟨hd.members c hc, hd.links c hc, fun hex => ?_⟩⟩
    -- the walk starts each list at size zero
    exact ⟨fun _ _ => Nat.zero_le _, hd.ascending c hc hex⟩
  have htally : s = Audit.tallied { arenaBytes := h.bounds.span }
      (ts ++ [⟨h.bounds.high, ⟨0, q, true⟩⟩]) := by
    simp only [stats, HeapM.bind_apply, hp.region, HeapM.get_apply, HeapM.lift_reading, Stats.tally,
      hrow.tallyFrom] at hs
    exact (EStateM.Result.ok.inj hs).1.symm
  have hcount : ((List.range bucketCount).flatMap lists).length =
      (vacant (ts ++ [⟨h.bounds.high, ⟨0, q, true⟩⟩])).length := by
    rw [vacant_append, vacant_cons_alloc rfl, vacant_nil, List.append_nil]
    exact hd.count
  have hpass : Checking.Passes
      (Audit.validate h.bounds h.store.buckets h.prologue) h.store.memory s :=
    Audit.validate_ok.mpr ⟨⟨by omega, by omega, hd.prologue⟩, _, lists, hrow, hlists,
      hcount, htally⟩
  unfold Checking.Passes at hpass
  simp only [Heap.validate, HeapM.bind_apply, HeapM.get_apply, hp.region, HeapM.lift_reading, hpass]

/-- A heap that the audit accepts is as described. -/
theorem described_of_validate (hp : h.Placed) (hv : validate h = .ok (.ok s) h) :
    (∃ ts q lists, h.Described ts q lists ∧ h.Linkable ts) ∧ h.bounds.high + 8 < wordLimit ∧
    stats h = .ok s h := by
  obtain ⟨⟨-, -, hprologue⟩, row, lists, hrow, hlists, hcount, rfl⟩ :=
    Audit.validate_ok.mp (validate_passes hv)
  have hhigh := hrow.high_lt
  have hstats : stats h = .ok (Audit.tallied { arenaBytes := h.bounds.span } row) h := by
    simp only [stats, HeapM.bind_apply, hp.region, HeapM.get_apply, HeapM.lift_reading, Stats.tally,
      show h.firstBlock = h.prologue + 16 from rfl, hrow.tallyFrom]
  obtain ⟨ts, q, rfl, hspan, hepilogue, hseen⟩ := hrow.spans
  have hlow := hp.low_le
  have hlisted : ∀ c < bucketCount, _ := fun c hc => hlists c (List.mem_range.mpr hc)
  have hmet : ∀ c < bucketCount, _ := fun c hc => (Audit.listed_iff
      (show h.bounds.low + 8 ≤ h.firstBlock by omega) (by omega)).mp (hlisted c hc).2
  have hspaced : Spaced ts := fun t ht hfree => ((hseen t ht).free hfree).1
  have hroom : ∀ t ∈ ts, h.firstBlock ≤ t.bp ∧ t.bp + t.tag.size ≤ h.bounds.high ∧
      32 ≤ t.tag.size := fun t ht => by
    obtain ⟨h1, h2, -, h3⟩ := hspan.bounds ht
    exact ⟨h1, h2, h3⟩
  refine ⟨⟨ts, q, lists, ?_, fun t ht hfree => ?_⟩, hhigh, hstats⟩
  · refine ⟨hprologue, hspan, fun t ht => (hseen t ht).aligned, fun t ht => ?_, hepilogue,
      fun t ht hfree => ?_, hspan.isChain hspaced,
      fun c hc => (hlisted c hc).1, fun c hc => (hmet c hc).2.1, fun c hc =>
        (hmet c hc).1, fun c hc => (hlisted c hc).2.chained.nodup,
      fun c hc hex => ((hmet c hc).2.2 hex).2, ?_⟩
    · exact (Region.tag_ok.mp (hseen t ht).tag).2.2.symm
    · obtain ⟨-, ⟨footer, hfooter, hsame⟩, -⟩ := (hseen t ht).free hfree
      obtain ⟨h1, h2, h3⟩ := hroom t ht
      rw [Region.footerTag_eq (hseen t ht).tag h3 (by omega) (by omega) (by omega)] at hfooter
      obtain rfl := Except.ok.inj hfooter
      exact hsame
    · rw [hcount, vacant_append, vacant_cons_alloc rfl, vacant_nil, List.append_nil]
  · obtain ⟨h1, h2, h3⟩ := hroom t ht
    exact (Audit.links_readable (by omega) (by omega) (by omega)).mp ((hseen t ht).free hfree).2.2

/-- A laid heap is as described, and the links of its free blocks are addresses. -/
theorem Laid.described [LawfulArena A] {row : List Tile} {idx : Index} (hl : h.Laid row idx) :
    ∃ ts q, h.Described ts q idx ∧ h.Linkable ts := by
  obtain ⟨ts, q, rfl, hw⟩ := hl.readOff
  have hlow := hl.tiled.low_le
  have hhigh := hl.tiled.high_lt
  have hmem : ∀ t ∈ ts, t ∈ ts ++ [⟨h.bounds.high, ⟨0, q, true⟩⟩] :=
    fun t ht => List.mem_append_left _ ht
  have htag : ∀ t ∈ ts, h.tagAt t.bp = t.tag := fun t ht => by
    rw [tagAt, hw.headers t ht, Tag.decode_encode (hl.tiled.fits (hmem t ht)).whole]
  have hlisted := fun c =>
    (Audit.listed_iff (show h.bounds.low + 8 ≤ h.firstBlock by omega) hhigh).mp (hl.sound.listed c)
  refine ⟨ts, q, ⟨hw.prologue, hw.tiles,
    fun t ht => hl.tiled.row.aligned hl.tiled.aligned (hmem t ht), htag, hw.epilogue,
    fun t ht hfree => ?_, hw.merged, fun c _ => hl.sound.filed.files.heads c, fun c _ =>
      (hlisted c).2.1,
    fun c _ => (hlisted c).1, fun c _ => hw.nodup c, fun c _ =>
      hw.ascending c, ?_⟩, fun t ht hfree => ?_⟩
  · -- the footer repeats the header
    have hfooter : Tag.decode (h.store.memory.word (t.stop - 16)) = t.tag := by
      rw [hw.footers t ht hfree]
      exact htag t ht
    rw [hfooter]
    exact ⟨rfl, hfree⟩
  · have hcount :=
      (hl.sound.filed.covers.perm hl.tiled.nodup_vacant hl.sound.filed.files.nodup).length_eq
    rw [vacant_append, vacant_cons_alloc rfl, vacant_nil, List.append_nil] at hcount
    exact hcount
  · -- a free block is filed, and so its links have been read
    have hclass : classOf t.entry.size = .ok (sizeClass t.entry.size) :=
      if_pos (hw.tiles.bounds ht).2.2.2
    obtain ⟨pre, post, hsplit⟩ :=
      List.append_of_mem ((hw.filed _ t.entry).mpr ⟨hclass, t, ht, hfree, rfl⟩)
    obtain ⟨hfirst, hstop, -, hroom⟩ := hw.tiles.bounds ht
    simp only [Tile.stop] at hstop
    exact (Audit.links_readable (by omega) (by omega) hhigh).mp
      ⟨_, hw.links _ pre t.entry post hsplit⟩

end Heap

end Heaps

/-- After any run, and then with any memory and any buckets whatever: the audit accepts the heap if
    and only if it is as described, the links of its free blocks are addresses, and its high end can
    be rounded up to a word; and its answer is then that of the count that checks nothing. -/
theorem Run.validate_iff {A : Type} [Arena A] [LawfulArena A] {arena : A} {memory : Memory}
    {config : Config} {past : List (Call × Answer)} {w : World A} (hs : LawfulArena.Sane arena)
    (hr : Run arena memory config past w) (store : Store) (s : Stats) :
    Heap.validate { w.heap with store := store } = .ok (.ok s) { w.heap with store := store } ↔
      (∃ ts q lists, Heap.Described { w.heap with store := store } ts q lists ∧
        Heap.Linkable { w.heap with store := store } ts) ∧
      w.heap.bounds.high + 8 < wordLimit ∧ Heap.stats { w.heap with store := store } =
        .ok s { w.heap with store := store } := by
  obtain ⟨row, idx, hw⟩ := hr.sound hs
  have hp : Heap.Placed { w.heap with store := store } :=
    ⟨hw.laid.low_aligned, hw.laid.tiled.low_le, hw.laid.tiled.aligned, hw.laid.tiled.row.le⟩
  constructor
  · exact Heap.described_of_validate hp
  · rintro ⟨⟨ts, q, lists, hd, hlink⟩, hhigh, hstats⟩
    exact hd.validate hp hhigh hlink hstats

/-- The heap with the stray is as described, and is counted as it was audited. -/
theorem Run.validate_iff_page : ∃ w h, Run page .blank {} [(.allocate 56, .ok (some 4128))] w ∧
    h = w.heap.withMemory (Heap.forged w.heap.store.memory) ∧
    Heap.validate h = .ok (.ok ⟨288, 1, 96, 1, 160⟩) h ∧
    (∃ ts q lists, h.Described ts q lists ∧ h.Linkable ts) ∧
    Heap.stats h = .ok ⟨288, 1, 96, 1, 160⟩ h := by
  obtain ⟨w, hr, -, hlook⟩ := Run.of_trial page .blank {} [.allocate 56] [.ok (some 4128)]
    (fun h => Heap.answer? Heap.validate (h.withMemory (Heap.forged h.store.memory)))
      (some (.ok ⟨288, 1, 96, 1, 160⟩))
    (by decide +kernel) (by decide +kernel)
  obtain ⟨h', hv⟩ := Heap.answer_some hlook
  obtain rfl := Heap.looks_validate.ok hv
  obtain ⟨hdescribed, -, hstats⟩ := (Run.validate_iff (A := FixedArena) trivial hr
      ⟨Heap.forged w.heap.store.memory, w.heap.store.buckets⟩ _).mp hv
  exact ⟨w, _, hr, rfl, hv, hdescribed, hstats⟩

/-- A heap that has taken all but the last word of the address space. It is as described, and
    the audit overflows at its end. -/
theorem Run.described_overflows :
    ∃ w ts q lists s, Run brink .blank {} [(.allocate 300, .ok (some 18446744073709551032))] w ∧
    w.heap.Described ts q lists ∧ w.heap.Linkable ts ∧ Heap.stats w.heap = .ok s w.heap ∧
    Heap.validate w.heap = .error (.fault .overflow) w.heap := by
  obtain ⟨w, hr, -, hhigh⟩ :=
    Run.of_trial brink .blank {} [.allocate 300] [.ok (some 18446744073709551032)]
    (fun h => h.bounds.high) 18446744073709551608 (by decide +kernel) (by decide +kernel)
  obtain ⟨row, idx, hw⟩ := hr.sound trivial
  obtain ⟨ts, q, hd, hlink⟩ := hw.laid.described
  exact ⟨w, ts, q, idx, _, hr, hd, hlink, Heap.stats_laid hw.laid,
    Heap.validate_overflow hw.laid (by rw [hhigh])⟩

end BoundaryTag
