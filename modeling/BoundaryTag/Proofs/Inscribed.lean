/-
  BoundaryTag.Proofs.Inscribed — the codec reads the blocks that it writes.

  A free block takes four words: its header, two links and its footer. Three steps write them
  (`Stroke`), no two of them the same byte, as even the least block has room for all four. So
  they can be taken in any order, and what one has written the others leave as it is. Memory
  that shows all three is `Inscribed`.

  The size and the bits of a tag share one word. As a size is a multiple of eight, it has no part
  in the lowest three bits, and setting one of them changes nothing else (`Tag.testBit_encode`).

  Proved: what the strokes have written is read as the block they were given, and nothing else
  has changed; the bit that tells of the block below is set in header and footer alike; from a
  block behind that says so a free block is found again; and for an allocated block its header
  is enough (`Region.reads_as_written`).
-/

import BoundaryTag.Proofs.Tagged
import BoundaryTag.Proofs.Threaded

namespace BoundaryTag

/-! ## The bits of a tag -/

namespace Tag

theorem testBit_encode {t : Tag} (h8 : t.size % 8 = 0) (i : Nat) :
    t.encode.testBit i = if i = 0 then t.alloc else if i = 1 then t.prevAlloc
    else t.size.testBit i := by
  obtain ⟨k, hk⟩ : ∃ k, t.size = 2 ^ 3 * k := Nat.dvd_of_mod_eq_zero h8
  rw [encode, Nat.testBit_or, Nat.testBit_or, hk, Nat.testBit_two_pow_mul, ← Nat.pow_one 2,
    Nat.testBit_two_pow_mul, Nat.testBit_bool_toNat, Nat.testBit_bool_toNat]
  rcases i with _ | _ | i <;> simp

theorem testBit_decode_size (w i : Nat) :
    (decode w).size.testBit i = (decide (3 ≤ i) && w.testBit i) := by
  have hdiv : (decode w).size = w / 2 ^ 3 * 2 ^ 3 := rfl
  rw [hdiv, Nat.testBit_mul_two_pow, Nat.testBit_div_two_pow]
  by_cases hi : 3 ≤ i
  · rw [Nat.sub_add_cancel hi]
  · simp [hi]

/-- Reading a word and writing it back clears bit 2, and no other. -/
theorem testBit_encode_decode (w i : Nat) :
    (decode w).encode.testBit i = (w.testBit i && i != 2) := by
  have halloc : (decode w).alloc = w.testBit 0 := by rw [Nat.testBit_zero]; rfl
  have hprev : (decode w).prevAlloc = w.testBit 1 := by rw [Nat.testBit_eq_decide_div_mod_eq]; rfl
  rw [testBit_encode (decode_size_mod w), testBit_decode_size, halloc, hprev]
  rcases i with _ | _ | _ | i <;> simp

/-- Telling a tag of the block below it sets one bit of its word. -/
theorem testBit_encode_prev {t : Tag} (h8 : t.size % 8 = 0) (p : Bool) (i : Nat) :
    (encode ⟨t.size, p, t.alloc⟩).testBit i = if i = 1 then p else t.encode.testBit i := by
  rw [testBit_encode h8, testBit_encode (t := ⟨t.size, p, t.alloc⟩) h8]
  by_cases h1 : i = 1
  · simp [h1]
  · simp [h1]

end Tag

/-! ## Writing a free block -/

/-- A free block whose words lie in the region. -/
structure Region.Admits (r : Region) (t : Tile) : Prop where
  free : t.tag.alloc = false
  fits : t.Fits
  low_le : r.low + 8 ≤ t.bp
  stop_le : t.stop ≤ r.high + 8

/-- What the links name are addresses above this one. -/
structure Links.Above (low : Nat) (l : Links) : Prop where
  next : ∀ n, l.next = some n → low < n ∧ n < wordLimit
  prev : ∀ n, l.prev = some n → low < n ∧ n < wordLimit

/-- The steps that write a free block. -/
inductive Stroke where
  | tags
  | next
  | prev
  deriving DecidableEq

namespace Stroke

def perform (r : Region) (t : Tile) (l : Links) : Stroke → Writing Unit
  | tags => r.writeFree t.bp t.tag.size t.tag.prevAlloc
  | next => r.setNext t.bp l.next
  | prev => r.setPrev t.bp l.prev

/-- The bytes of the words that the step writes. -/
def Covers (t : Tile) : Stroke → Nat → Prop
  | tags, y => t.Marks y
  | next, y => t.bp ≤ y ∧ y < t.bp + 8
  | prev, y => t.bp + 8 ≤ y ∧ y < t.bp + 16

/-- The memory has what the step writes. -/
def Shown (low : Nat) (t : Tile) (l : Links) (m : Memory) : Stroke → Prop
  | tags => t.Written m
  | next => m.word t.bp = link low l.next
  | prev => m.word (t.bp + 8) = link low l.prev

variable {r : Region} {t : Tile} {l : Links} {m m' : Memory} {s s' : Stroke} {low y : Nat}

/-- No two steps write the same byte. -/
theorem covers_apart (ht : r.Admits t) (hne : s ≠ s') (hy : s.Covers t y) : ¬ s'.Covers t y := by
  have h32 := ht.fits.room ht.free
  have hmarks : t.Marks y → y < t.bp ∨ t.bp + 16 ≤ y := fun hm => by
    have := hm.bounds ht.fits
    simp only [Tile.stop] at this
    omega
  cases s <;> cases s' <;> simp only [Covers, ne_eq, not_true_eq_false, reduceCtorEq] at hne hy ⊢
  case tags.next | tags.prev =>
    have := hmarks hy
    omega
  case next.tags | prev.tags =>
    intro hm
    have := hmarks hm
    omega
  case next.prev | prev.next => omega

theorem Shown.congr (hf : t.Fits) (h : s.Shown low t l m)
    (hy : ∀ y, s.Covers t y → m'.byte y = m.byte y) : s.Shown low t l m' := by
  cases s with
  | tags => exact Tile.Written.congr h hf hy
  | next => exact (Memory.word_congr fun y h₁ h₂ => hy y ⟨h₁, h₂⟩).trans h
  | prev => exact (Memory.word_congr fun y h₁ h₂ => hy y ⟨h₁, h₂⟩).trans h

theorem perform_spec (ht : r.Admits t) (hl : l.Above r.low) (s : Stroke) (m : Memory) :
    ∃ m', s.perform r t l m = .ok () m' ∧ s.Shown r.low t l m' ∧ ∀ y, ¬ s.Covers t y →
      m'.byte y = m.byte y := by
  have h32 := ht.fits.room ht.free
  have hlow := ht.low_le
  have hstop := ht.stop_le
  have hlt := ht.fits.stop_lt
  simp only [Tile.stop] at hstop hlt
  cases s with
  | tags =>
    obtain ⟨m', hrun, hstamp⟩ := Region.writeFree_spec ht.free ht.fits hlow ht.stop_le m
    exact ⟨m', hrun, hstamp.written, hstamp.plain⟩
  | next =>
    have hword := Region.link_lt r hl.next (by omega)
    refine ⟨_, Region.setNext_eq (by omega) (by omega) l.next fun n hn =>
      Nat.le_of_lt (hl.next n hn).1, ?_, fun y hy => ?_⟩
    · exact Memory.word_setWord_of_lt m (Nat.lt_of_le_of_lt (Nat.le_add_left _ _) hword)
    · simp only [Covers] at hy
      exact Memory.byte_setWord_apart m _ (by omega)
  | prev =>
    have hword := Region.link_lt r hl.prev (by omega)
    refine ⟨_, Region.setPrev_eq (by omega) (by omega) l.prev
      (fun n hn => Nat.le_of_lt (hl.prev n hn).1) (by omega), ?_, fun y hy => ?_⟩
    · exact Memory.word_setWord_of_lt m (Nat.lt_of_le_of_lt (Nat.le_add_left _ _) hword)
    · simp only [Covers] at hy
      exact Memory.byte_setWord_apart m _ (by omega)

/-- What one step has written another leaves as it is. -/
theorem Shown.kept (ht : r.Admits t) (h : s'.Shown r.low t l m) (hs : s.Shown r.low t l m')
    (hy : ∀ y, ¬ s.Covers t y → m'.byte y = m.byte y) :
    s'.Shown r.low t l m' := by
  by_cases he : s' = s
  · exact he ▸ hs
  · exact h.congr ht.fits fun y hcov => hy y (covers_apart ht he hcov)

/-- Any steps, in any order. -/
theorem perform_all (ht : r.Admits t) (hl : l.Above r.low) (ss : List Stroke) (m : Memory) :
    ∃ m', ss.forM (perform r t l) m = .ok () m' ∧
      (∀ s, s ∈ ss ∨ s.Shown r.low t l m → s.Shown r.low t l m') ∧
      ∀ y, (∀ s ∈ ss, ¬ s.Covers t y) → m'.byte y = m.byte y := by
  induction ss generalizing m with
  | nil => exact ⟨m, rfl, fun s hs => hs.resolve_left List.not_mem_nil, fun _ _ => rfl⟩
  | cons s ss ih =>
    obtain ⟨m₁, hrun, hshown, hplain⟩ := perform_spec ht hl s m
    obtain ⟨m', hruns, hall, hplain'⟩ := ih m₁
    have hcons : (s :: ss).forM (perform r t l) = s.perform r t l >>= fun _ =>
      ss.forM (perform r t l) := rfl
    refine ⟨m', ?_, fun s' hs' => hall s' ?_, fun y hy => ?_⟩
    · rw [hcons, Writing.bind_apply, hrun]
      exact hruns
    · rcases hs' with hs' | hs'
      · rcases List.mem_cons.mp hs' with rfl | hs'
        · exact .inr hshown
        · exact .inl hs'
      · exact .inr (hs'.kept ht hshown hplain)
    · rw [hplain' y fun s' hs' => hy s' (List.mem_cons_of_mem s hs'),
        hplain y (hy s List.mem_cons_self)]

end Stroke

/-! ## Reading it -/

/-- The memory has the block with these links. -/
def Inscribed (low : Nat) (t : Tile) (l : Links) (m : Memory) : Prop :=
  ∀ s : Stroke, s.Shown low t l m

/-- In the block's header and footer, which stay the same, the bit that tells of the block below
    is `p`. Nothing else changed. -/
structure Tile.Turned (t : Tile) (p : Bool) (m m' : Memory) : Prop where
  same : m'.word (t.stop - 16) = m'.word (t.bp - 8)
  header : ∀ i, (m'.word (t.bp - 8)).testBit i = if i = 1 then p else (m.word (t.bp - 8)).testBit i
  footer : ∀ i, (m'.word (t.stop - 16)).testBit i = if i = 1 then p
  else (m.word (t.stop - 16)).testBit i
  plain : ∀ y, ¬ t.Marks y → m'.byte y = m.byte y

/-- The ways to write a block so that it says that the block below it is free. -/
inductive Region.Tells (r : Region) (m : Memory) (bp : Nat) : Writing Unit → Prop
  | allocated {size : Nat} : size % 8 = 0 → Tells r m bp (r.writeAllocated bp size false)
  | free {size : Nat} : r.Admits ⟨bp, ⟨size, false, false⟩⟩ →
      Tells r m bp (r.writeFree bp size false)
  | told {tag : Tag} : Tile.Fits ⟨bp, tag⟩ → bp + tag.size ≤ r.high + 8 → Tile.Written ⟨bp, tag⟩ m →
      Tells r m bp (r.setPrevAlloc bp false)

variable {r : Region} {t : Tile} {l : Links} {m m' : Memory}

namespace Inscribed

theorem block (h : Inscribed r.low t l m) (ht : r.Admits t) (hl : l.Above r.low) :
    r.block t.bp m = .ok (.free t.bp t.tag t.tag l) := by
  have h32 := ht.fits.room ht.free
  have hlow := ht.low_le
  have hstop := ht.stop_le
  have hlt := ht.fits.stop_lt
  have hw : t.Written m := h .tags
  have htag : r.tag t.bp m = .ok t.tag :=
    Region.tag_of_written hw ht.fits.whole hlow (by simp only [Tile.stop] at hstop; omega)
  have hfoot : m.word (t.bp + t.tag.size - 16) = t.tag.encode := hw.footer ht.free
  simp only [Tile.stop] at hstop hlt
  have hfooter : r.footerTag t.bp m = .ok t.tag := by
    rw [Region.footerTag_eq htag h32 (by omega) hstop hlt, hfoot, Tag.decode_encode ht.fits.whole]
  have hlinks : r.links t.bp m = .ok l :=
    Region.links_of_link (h .next) (h .prev) hl.next hl.prev (by omega) (by omega) (by omega)
  simp only [Region.block, Reading.bind_apply, htag, Except.bind, ht.free, Bool.false_eq_true,
    if_false, hfooter, hlinks, Reading.pure_apply]

theorem setPrevAlloc (h : Inscribed r.low t l m) (ht : r.Admits t) (p : Bool) :
    ∃ m', r.setPrevAlloc t.bp p m = .ok () m' ∧ t.Turned p m m' ∧
      Inscribed r.low (t.withPrev p) l m' := by
  have hw : t.Written m := h .tags
  have h32 := ht.fits.room ht.free
  have hstop := ht.stop_le
  obtain ⟨m', hrun, hw', hplain⟩ :=
    Region.setPrevAlloc_spec p hw ht.fits ht.low_le (by simp only [Tile.stop] at hstop; omega) hstop
  have hlinks : ∀ s : Stroke, s ≠ .tags → s.Shown r.low t l m' := fun s hs =>
    (h s).congr ht.fits fun y hcov => hplain y (Stroke.covers_apart ht hs hcov)
  have hheader : m'.word (t.bp - 8) = Tag.encode ⟨t.tag.size, p, t.tag.alloc⟩ := hw'.header
  have hfooter : m'.word (t.stop - 16) = Tag.encode ⟨t.tag.size, p, t.tag.alloc⟩ :=
    hw'.footer ht.free
  refine ⟨m', hrun, ⟨hfooter.trans hheader.symm, fun i => ?_, fun i => ?_, hplain⟩, fun s => ?_⟩
  · rw [hheader, hw.header, Tag.testBit_encode_prev ht.fits.whole]
  · rw [hfooter, hw.footer ht.free, Tag.testBit_encode_prev ht.fits.whole]
  · cases s with
    | tags => exact hw'
    | next => exact hlinks .next (by decide)
    | prev => exact hlinks .prev (by decide)

/-- Whatever says behind the block that it is free, it is found from there. -/
theorem found (h : Inscribed r.low t l m) (ht : r.Admits t) (hstop : t.stop ≤ r.high)
    (hy : ∀ y, y + 8 < t.stop → m'.byte y = m.byte y) {tag : Tag} (htag : r.tag t.stop m' = .ok tag)
    (hp : tag.prevAlloc = false) : (r.above t.bp >>= r.below) m' = .ok t.bp := by
  have h32 := ht.fits.room ht.free
  have hw : t.Written m' := Tile.Written.congr (h .tags) ht.fits fun y hm => hy y (by
    have := hm.bounds ht.fits
    simp only [Tile.stop] at this ⊢
    omega)
  have hbp : t.bp ≤ r.high := by simp only [Tile.stop] at hstop; omega
  rw [Reading.bind_apply, Region.above_of_written hw ht.fits.whole ht.low_le hbp ht.fits.stop_lt]
  exact Region.below_of_written hw ht.fits ht.free ht.low_le hstop htag hp

end Inscribed

namespace Region

variable {bp size : Nat}

/-- Only a word above the block below is written. -/
theorem Tells.spec {w : Writing Unit} (h : r.Tells m bp w) (hlow : r.low + 8 ≤ bp)
    (hbp : bp ≤ r.high) :
    ∃ m' tag, w m = .ok () m' ∧ r.tag bp m' = .ok tag ∧ tag.prevAlloc = false ∧ ∀ y, y + 8 < bp →
      m'.byte y = m.byte y := by
  cases h with
  | @allocated size h8 =>
    refine ⟨_, _, writeAllocated_eq hlow hbp size false, tag_eq hlow hbp, ?_,
      fun y hy => Memory.byte_setWord_apart m _ (by omega)⟩
    rw [Memory.word_setWord_same, Tag.encode_eq_add (t := ⟨size, false, true⟩) h8]
    simp [Tag.decode]
    omega
  | free hu =>
    obtain ⟨m', hrun, hstamp⟩ := writeFree_spec hu.free hu.fits hu.low_le hu.stop_le m
    refine ⟨m', _, hrun, hstamp.tag, rfl, fun y hy => hstamp.plain y fun hm => ?_⟩
    have := (hm.bounds hu.fits).1
    simp only at this
    omega
  | @told tag hf hstop hw =>
    obtain ⟨m', hrun, hw', hplain⟩ := setPrevAlloc_spec false hw hf hlow hbp hstop
    refine ⟨m', _, hrun, tag_of_written hw' hf.whole hlow hbp, rfl,
      fun y hy => hplain y fun hm => ?_⟩
    have := (hm.bounds hf).1
    simp only at this
    omega

/-- An allocated block is its header. -/
theorem block_writeAllocated (hlow : r.low + 8 ≤ bp) (hbp : bp ≤ r.high) (h8 : size % 8 = 0)
    (hlt : size < wordLimit) (p : Bool) :
    ∃ m', r.writeAllocated bp size p m = .ok () m' ∧
      r.block bp m' = .ok (.allocated bp ⟨size, p, true⟩) ∧
      ∀ y, (y + 8 < bp ∨ bp ≤ y) → m'.byte y = m.byte y := by
  have henc : Tag.encode ⟨size, p, true⟩ < wordLimit :=
    Tag.encode_lt h8 (by simp only [wordLimit] at hlt ⊢; omega)
  refine ⟨_, writeAllocated_eq hlow hbp size p, ?_,
    fun y hy => Memory.byte_setWord_apart m _ (by omega)⟩
  have htag : r.tag bp (m.setWord (bp - 8) (Tag.encode ⟨size, p, true⟩)) = .ok ⟨size, p, true⟩ := by
    rw [tag_eq hlow hbp, Memory.word_setWord_of_lt m henc, Tag.decode_encode h8]
  simp only [block, Reading.bind_apply, htag, Except.bind, if_true, Reading.pure_apply]

/-- For every region: the three steps that write a free block, in any order, write its four
    words, and the block is read as it was written. As long as these words stand, setting the
    bit that tells of the block below changes this bit of header and footer and nothing else;
    and the block is found from the one behind it once that says that it is free. An allocated
    block is read as it was written too, by its header alone. And a word read as a tag and
    written again is the same but for bit 2, which is clear. -/
theorem reads_as_written (r : Region) :
    (∀ t l, r.Admits t → l.Above r.low →
      (∀ ss : List Stroke, (∀ s, s ∈ ss) → ∀ m, ∃ m', ss.forM (Stroke.perform r t l) m = .ok () m' ∧
        r.block t.bp m' = .ok (.free t.bp t.tag t.tag l) ∧ Inscribed r.low t l m' ∧
        ∀ y, (∀ s : Stroke, ¬ s.Covers t y) → m'.byte y = m.byte y) ∧
      ∀ m, Inscribed r.low t l m →
        (∀ p, ∃ m', r.setPrevAlloc t.bp p m = .ok () m' ∧ t.Turned p m m' ∧
          Inscribed r.low (t.withPrev p) l m') ∧
        (t.stop ≤ r.high → ∀ w, r.Tells m t.stop w →
          ∃ m', w m = .ok () m' ∧ (r.above t.bp >>= r.below) m' = .ok t.bp)) ∧
    (∀ bp size p m, r.low + 8 ≤ bp → bp ≤ r.high → size % 8 = 0 → size < wordLimit →
      ∃ m', r.writeAllocated bp size p m = .ok () m' ∧
        r.block bp m' = .ok (.allocated bp ⟨size, p, true⟩) ∧
        ∀ y, (y + 8 < bp ∨ bp ≤ y) → m'.byte y = m.byte y) ∧
    ∀ w i, (Tag.decode w).encode.testBit i = (w.testBit i && i != 2) := by
  refine ⟨fun t l ht hl => ⟨fun ss hall m => ?_,
    fun m h => ⟨h.setPrevAlloc ht, fun hstop w hw => ?_⟩⟩, ?_, Tag.testBit_encode_decode⟩
  · obtain ⟨m', hrun, hshown, hplain⟩ := Stroke.perform_all ht hl ss m
    have hinscribed : Inscribed r.low t l m' := fun s => hshown s (.inl (hall s))
    exact ⟨m', hrun, hinscribed.block ht hl, hinscribed, fun y hy => hplain y fun s _ => hy s⟩
  · have hlow : r.low + 8 ≤ t.stop := Nat.le_trans ht.low_le (Nat.le_add_right _ _)
    obtain ⟨m', tag, hrun, htag, hp, hbelow⟩ := hw.spec hlow hstop
    exact ⟨m', hrun, h.found ht hstop hbelow htag hp⟩
  · intro bp size p m hlow hbp h8 hlt
    exact block_writeAllocated hlow hbp h8 hlt p

/-- A least block, whose footer follows right upon its links, and the header that
    closes a heap behind it. -/
theorem reads_as_written_least : ∃ m m', [Stroke.prev, .tags, .next].forM
      (Stroke.perform ⟨4096, 4144⟩ ⟨4112, ⟨32, true, false⟩⟩ ⟨some 4128, none⟩)
      Memory.blank = .ok () m ∧
    block ⟨4096, 4144⟩ 4112 m =
      .ok (.free 4112 ⟨32, true, false⟩ ⟨32, true, false⟩ ⟨some 4128, none⟩) ∧
    writeAllocated ⟨4096, 4144⟩ 4144 0 false m = .ok () m' ∧
    (above ⟨4096, 4144⟩ 4112 >>= below ⟨4096, 4144⟩) m' = .ok 4112 := by
  have hadmits : Admits ⟨4096, 4144⟩ ⟨4112, ⟨32, true, false⟩⟩ :=
    ⟨rfl, ⟨by decide, by decide, fun _ => by decide, by decide⟩, by decide, by decide⟩
  have habove : Links.Above 4096 ⟨some 4128, none⟩ :=
    ⟨fun n hn => by obtain rfl := Option.some.inj hn; decide, fun n hn => nomatch hn⟩
  obtain ⟨hwrite, hlater⟩ := (reads_as_written ⟨4096, 4144⟩).1 _ _ hadmits habove
  obtain ⟨m, hrun, hblock, hinscribed, -⟩ :=
    hwrite [.prev, .tags, .next] (fun s => by cases s <;> simp) Memory.blank
  have htells : Tells ⟨4096, 4144⟩ m 4144 (writeAllocated ⟨4096, 4144⟩ 4144 0 false) :=
    .allocated rfl
  obtain ⟨m', hclose, hfound⟩ := (hlater m hinscribed).2 (by decide) _ htells
  exact ⟨m, m', hrun, hblock, hclose, hfound⟩

end Region

end BoundaryTag
