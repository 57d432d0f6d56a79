/-
  BoundaryTag.Proofs.Tagged — a row of tiles in memory: its headers and the footers of its free
  blocks.

  `Tiled` says that a row's tag words are in memory. What a step on tags needs to know is then
  read off the row: `Tiled.tag`, `Tiled.above` and `Tiled.below` are the answers of the
  region's own readers. `Holed.refit` is the one way in which a row changes: some blocks in
  its middle give way to others over the same space, and the block behind them is told whether
  the last of them is allocated.

  A byte is `Guarded` when it lies below the first header or in the payload of an allocated block.
  Tag words never do, nor does anything within a free block (`Guarded.outside_header`,
  `Guarded.outside_free`).
-/

import BoundaryTag.Proofs.Tiling
import BoundaryTag.Region.Lemmas

namespace BoundaryTag

theorem Tag.encode_lt {t : Tag} (h : t.size % 8 = 0) (hlt : t.size + 8 ≤ wordLimit) :
    t.encode < wordLimit := by
  rw [Tag.encode_eq_add h]
  cases t.prevAlloc <;> cases t.alloc <;> simp <;> simp at hlt <;> omega

/-! ## The tag words of one tile -/

namespace Tile

variable {t : Tile} {m m' : Memory}

/-- The bytes of a tile's tag words: its header, and the footer of a free block. -/
def Marks (t : Tile) (y : Nat) : Prop :=
  (t.bp ≤ y + 8 ∧ y < t.bp) ∨ (t.tag.alloc = false ∧ t.stop ≤ y + 16 ∧ y + 8 < t.stop)

structure Written (t : Tile) (m : Memory) : Prop where
  header : m.word (t.bp - 8) = t.tag.encode
  footer : t.tag.alloc = false → m.word (t.stop - 16) = t.tag.encode

/-- Stores a tile's tag words. -/
def put (t : Tile) (m : Memory) : Memory :=
  let m := m.setWord (t.bp - 8) t.tag.encode
  if t.tag.alloc then m else m.setWord (t.stop - 16) t.tag.encode

/-- A block that can stand somewhere: a whole number of words, with room for links and footer if
    it is free, within the addresses. -/
structure Fits (t : Tile) : Prop where
  header : 8 ≤ t.bp
  whole : t.tag.size % 8 = 0
  room : t.tag.alloc = false → 32 ≤ t.tag.size
  stop_lt : t.stop < wordLimit

theorem Fits.encode_lt (h : t.Fits) : t.tag.encode < wordLimit := by
  have h1 := h.header
  have h2 := h.stop_lt
  simp only [stop] at h2
  exact Tag.encode_lt h.whole (by omega)

/-- Tag words lie right below the payload, or at the end of a block that has room for them. -/
theorem Marks.bounds {y : Nat} (h : t.Marks y) (hf : t.Fits) :
    t.bp ≤ y + 8 ∧ (y < t.bp ∨ 32 ≤ t.tag.size ∧ t.stop ≤ y + 16 ∧ y + 8 < t.stop) := by
  rcases h with h | ⟨ha, h⟩
  · exact ⟨h.1, .inl h.2⟩
  · have := hf.room ha
    simp only [stop] at *
    exact ⟨by omega, .inr ⟨this, h⟩⟩

theorem Written.congr (hw : t.Written m) (ht : t.Fits) (h : ∀ y, t.Marks y → m'.byte y = m.byte y) :
    t.Written m' := by
  have h8 := ht.header
  refine ⟨?_, ?_⟩
  · rw [← hw.header]
    exact Memory.word_congr fun x h1 h2 => h x (.inl ⟨by omega, by omega⟩)
  · intro hf
    rw [← hw.footer hf]
    have := ht.room hf
    exact Memory.word_congr fun x h1 h2 =>
      h x (.inr ⟨hf, by simp only [stop] at *; omega, by simp only [stop] at *; omega⟩)

theorem put_written (ht : t.Fits) (m : Memory) : t.Written (t.put m) := by
  have h8 := ht.header
  have hlt := ht.encode_lt
  unfold put
  cases ha : t.tag.alloc with
  | true => exact ⟨Memory.word_setWord_of_lt m hlt, fun h => by rw [ha] at h; cases h⟩
  | false =>
    have := ht.room ha
    refine ⟨?_, fun _ => Memory.word_setWord_of_lt _ hlt⟩
    simp only [Bool.false_eq_true, if_false]
    rw [Memory.word_setWord_apart _ _ (by simp only [stop]; omega), Memory.word_setWord_of_lt m hlt]

theorem put_byte {y : Nat} (ht : t.Fits) (h : ¬ t.Marks y) (m : Memory) :
    (t.put m).byte y = m.byte y := by
  have h8 := ht.header
  simp only [Marks, not_or, not_and] at h
  have hheader : (m.setWord (t.bp - 8) t.tag.encode).byte y = m.byte y :=
    Memory.byte_setWord_apart m _ (by omega)
  unfold put
  cases ha : t.tag.alloc with
  | true => exact hheader
  | false =>
    have := ht.room ha
    simp only [Bool.false_eq_true, if_false]
    rw [Memory.byte_setWord_apart _ _ (by have := h.2 ha; simp only [stop] at *; omega), hheader]

end Tile

namespace Row

variable {high first : Nat} {p : Bool} {row : List Tile} {t u : Tile}

theorem fits (h : Row high first p row) (hf : 8 ≤ first) (hh : high < wordLimit)
    (ht : t ∈ row) : t.Fits := by
  obtain ⟨h1, h2, h3, -⟩ := h.bounds ht
  exact ⟨by omega, h3, h.size_of_free ht, by omega⟩

/-- A tag word of one tile is no tag word of another, nor within another block. -/
theorem marks_apart (h : Row high first p row) (hf : 8 ≤ first) (hh : high < wordLimit)
    (ht : t ∈ row) (hu : u ∈ row) (hne : t ≠ u) {y : Nat} (hy : t.Marks y) :
    ¬ u.Marks y ∧ (32 ≤ u.tag.size → y + 8 < u.bp ∨ u.stop ≤ y + 8) := by
  have hty := hy.bounds (h.fits hf hh ht)
  have huy : u.Marks y → _ := fun hm => hm.bounds (h.fits hf hh hu)
  simp only [Tile.stop] at *
  rcases h.apart ht hu with he | ⟨h1, h2⟩ | ⟨h1, h2⟩
  · exact absurd he hne
  · simp only [Tile.stop] at h1
    exact ⟨fun hm => by have := huy hm; omega, fun _ => by omega⟩
  · simp only [Tile.stop] at h1
    exact ⟨fun hm => by have := huy hm; omega, fun _ => by omega⟩

end Row

/-! ## Reading and writing tags -/

namespace Region

variable {r : Region} {m : Memory} {t : Tile}

theorem tag_of_written (hw : t.Written m) (h8 : t.tag.size % 8 = 0) (h₁ : r.low + 8 ≤ t.bp)
    (h₂ : t.bp ≤ r.high) :
    r.tag t.bp m = .ok t.tag := by
  rw [tag_eq h₁ h₂, hw.header, Tag.decode_encode h8]

theorem above_of_written (hw : t.Written m) (h8 : t.tag.size % 8 = 0) (h₁ : r.low + 8 ≤ t.bp)
    (h₂ : t.bp ≤ r.high) (h₃ : t.stop < wordLimit) : r.above t.bp m = .ok t.stop := by
  have hdec : (Tag.decode (m.word (t.bp - 8))).size = t.tag.size := by rw [hw.header,
      Tag.decode_encode h8]
  rw [above_eq h₁ h₂ (by rw [hdec]; exact h₃), hdec]
  rfl

/-- A free block is found from the one behind it, when that says that it is free. -/
theorem below_of_written {tag : Tag} (hw : t.Written m) (hf : t.Fits) (ha : t.tag.alloc = false)
    (h₁ : r.low + 8 ≤ t.bp) (h₂ : t.stop ≤ r.high) (htag : r.tag t.stop m = .ok tag)
    (hp : tag.prevAlloc = false) : r.below t.stop m = .ok t.bp := by
  have h32 := hf.room ha
  have hfoot := hw.footer ha
  simp only [Tile.stop] at h₂ htag hfoot ⊢
  simp only [below,
    Reading.bind_apply, htag, Except.bind, hp, Bool.false_eq_true, if_false, Reading.lift_apply,
    checkedSub_ok (show doubleWord ≤ t.bp + t.tag.size by simp only [doubleWord]; omega),
    doubleWord, read_eq (show r.low ≤ t.bp + t.tag.size - 16 by omega)
    (show t.bp + t.tag.size - 16 + 8 ≤ r.high by omega)]
  rw [hfoot, Tag.decode_encode hf.whole, checkedSub_ok (Nat.le_add_left _ _), Nat.add_sub_cancel]

/-- Memory `m'` shows the tag of `t`, and is `m` but for its tag words. -/
structure Stamped (r : Region) (t : Tile) (m m' : Memory) : Prop where
  written : t.Written m'
  plain : ∀ y, ¬ t.Marks y → m'.byte y = m.byte y
  tag : r.tag t.bp m' = .ok t.tag
  above : r.above t.bp m' = .ok t.stop

theorem put_stamped (hf : t.Fits) (h₁ : r.low + 8 ≤ t.bp) (h₂ : t.bp ≤ r.high) :
    r.Stamped t m (t.put m) := by
  have hw : t.Written (t.put m) := Tile.put_written hf m
  exact ⟨hw, fun _ hy => Tile.put_byte hf hy m, tag_of_written hw hf.whole h₁ h₂,
    above_of_written hw hf.whole h₁ h₂ hf.stop_lt⟩

theorem writeAllocated_spec (ha : t.tag.alloc = true) (hf : t.Fits) (h₁ : r.low + 8 ≤ t.bp)
    (h₂ : t.bp ≤ r.high) (m : Memory) :
    ∃ m', r.writeAllocated t.bp t.tag.size t.tag.prevAlloc m = .ok () m' ∧ r.Stamped t m m' := by
  refine ⟨t.put m, ?_, put_stamped hf h₁ h₂⟩
  rw [writeAllocated_eq h₁ h₂]
  obtain ⟨bp, size, prev, alloc⟩ := t
  subst ha
  rfl

theorem writeFree_spec (ha : t.tag.alloc = false) (hf : t.Fits) (h₁ : r.low + 8 ≤ t.bp)
    (h₂ : t.stop ≤ r.high + 8) (m : Memory) :
    ∃ m', r.writeFree t.bp t.tag.size t.tag.prevAlloc m = .ok () m' ∧ r.Stamped t m m' := by
  have h32 := hf.room ha
  have hlt := hf.stop_lt
  simp only [Tile.stop] at h₂ hlt
  refine ⟨t.put m, ?_, put_stamped hf h₁ (by omega)⟩
  rw [writeFree_eq h₁ (by omega) (by omega) hlt]
  obtain ⟨bp, size, prev, alloc⟩ := t
  subst ha
  rfl

/-- Setting the bit changes tag words only, and makes them those of the tile with that bit. -/
theorem setPrevAlloc_spec (p : Bool) (hw : t.Written m) (hf : t.Fits) (h₁ : r.low + 8 ≤ t.bp)
    (h₂ : t.bp ≤ r.high) (h₃ : t.stop ≤ r.high + 8) :
    ∃ m', r.setPrevAlloc t.bp p m = .ok () m' ∧ (t.withPrev p).Written m' ∧ ∀ y, ¬ t.Marks y →
      m'.byte y = m.byte y := by
  simp only [setPrevAlloc, Writing.bind_apply, Writing.lift_reading,
    tag_of_written hw hf.whole h₁ h₂]
  by_cases hp : t.tag.prevAlloc = p
  · subst hp
    exact ⟨m, by simp [pure, EStateM.pure], hw, fun _ _ => rfl⟩
  · have hf' : (t.withPrev p).Fits := ⟨hf.header, hf.whole, hf.room, hf.stop_lt⟩
    refine ⟨(t.withPrev p).put m, ?_, Tile.put_written hf' m, fun y hy => Tile.put_byte hf' hy m⟩
    have h8 := hf.header
    have hne : (t.tag.prevAlloc != p) = true := by simpa using hp
    simp only [hne, if_true, Writing.bind_apply, Writing.lift_except, header_eq h₁ h₂,
      write_eq (show r.low ≤ t.bp - 8 by omega) (show t.bp - 8 + 8 ≤ r.high by omega)]
    cases ha : t.tag.alloc with
    | true => simp [Tile.put, ha, Tile.withPrev, pure, EStateM.pure]
    | false =>
      have h32 := hf.room ha
      have hlt := hf'.encode_lt
      have hst := hf.stop_lt
      simp only [Tile.stop] at h₃ hst
      have henc : Tag.encode ⟨t.tag.size, p, false⟩ = (t.withPrev p).tag.encode := by
        rw [Tile.withPrev, ← ha]
      have hpos : (!false && decide (t.tag.size > 0)) = true := by simp; omega
      have hdec : (Tag.decode ((m.setWord (t.bp - 8) (t.withPrev p).tag.encode).word
          (t.bp - 8))).size = t.tag.size := by
        rw [Memory.word_setWord_of_lt m hlt, Tag.decode_encode hf'.whole]; rfl
      simp only [henc, hpos, if_true, Writing.bind_apply, Writing.lift_reading, footer,
        Reading.bind_apply, size_eq h₁ h₂, Except.bind, hdec, Reading.lift_apply, checkedAdd_ok hst,
        checkedSub_ok (show doubleWord ≤ t.bp + t.tag.size by simp only [doubleWord]; omega)]
      rw [write_eq (by simp only [doubleWord]; omega) (by simp only [doubleWord]; omega)]
      simp [Tile.put, ha, Tile.stop]

end Region

/-! ## A row in memory -/

/-- The row's blocks lie in memory between `first` and the high end, above everything the heap keeps
    for itself. -/
structure Tiled (r : Region) (m : Memory) (first : Nat) (ts : List Tile) : Prop where
  row : Row r.high first true ts
  written : ∀ t ∈ ts, t.Written m
  low_le : r.low + 32 ≤ first
  aligned : first % 8 = 0
  high_lt : r.high < wordLimit

namespace Tiled

variable {r : Region} {m m' : Memory} {first : Nat} {row L M M' R : List Tile} {t u : Tile}

theorem fits (h : Tiled r m first row) (ht : t ∈ row) : t.Fits :=
  h.row.fits (by have := h.low_le; omega) h.high_lt ht

theorem within (h : Tiled r m first row) (ht : t ∈ row) :
    r.low + 32 ≤ t.bp ∧ t.bp ≤ t.stop ∧ t.stop ≤ r.high := by
  obtain ⟨h1, h2, -, -⟩ := h.row.bounds ht
  have := h.low_le
  exact ⟨by omega, Nat.le_add_right _ _, h2⟩

theorem tag (h : Tiled r m first row) (ht : t ∈ row) : r.tag t.bp m = .ok t.tag := by
  obtain ⟨h1, h2, h3⟩ := h.within ht
  exact Region.tag_of_written (h.written t ht) (h.fits ht).whole (by omega) (by omega)

theorem size (h : Tiled r m first row) (ht : t ∈ row) : r.size t.bp m = .ok t.tag.size := by
  simp only [Region.size, Reading.bind_apply, h.tag ht]
  rfl

theorem above (h : Tiled r m first row) (ht : t ∈ row) : r.above t.bp m = .ok t.stop := by
  obtain ⟨h1, h2, h3⟩ := h.within ht
  exact Region.above_of_written (h.written t ht) (h.fits ht).whole (by omega) (by omega)
    (h.fits ht).stop_lt

/-- What follows a tile starts where it ends and knows whether it is allocated. -/
theorem next (h : Tiled r m first (L ++ t :: u :: R)) :
    u.bp = t.stop ∧ u.tag.prevAlloc = t.tag.alloc := by
  obtain ⟨c, q, -, h⟩ := Row.append_cons.mp h.row
  obtain ⟨h1, h2, -⟩ := (h.tail (.inl (List.cons_ne_nil _ _))).2.head
  exact ⟨h1, h2⟩

/-- A free block below `u` is found by its footer. -/
theorem below (h : Tiled r m first (L ++ t :: u :: R)) (ht : t.tag.alloc = false) :
    r.below u.bp m = .ok t.bp := by
  have mt : t ∈ L ++ t :: u :: R := by simp
  have mu : u ∈ L ++ t :: u :: R := by simp
  obtain ⟨hbp, hprev⟩ := h.next
  obtain ⟨hlow, -, hstop⟩ := h.within mt
  have htag := h.tag mu
  rw [hbp] at htag ⊢
  exact Region.below_of_written (h.written t mt) (h.fits mt) ht (by omega) hstop htag
    (hprev.trans ht)

/-- A byte in no tag word of these tiles. -/
def Plain (ts : List Tile) (y : Nat) : Prop := ∀ t ∈ ts, ¬ t.Marks y

/-- The links of a free block lie in no tag word. -/
theorem plain_of_link (h : Tiled r m first row) (ht : t ∈ row) (hf : t.tag.alloc = false) {y : Nat}
    (h1 : t.bp ≤ y) (h2 : y < t.bp + 16) : Plain row y := by
  intro u hu hy
  have h32 := (h.fits ht).room hf
  by_cases he : u = t
  · subst he
    have := hy.bounds (h.fits hu)
    simp only [Tile.stop] at this
    omega
  · have := (h.row.marks_apart (by have := h.low_le; omega) h.high_lt hu ht he hy).2 h32
    simp only [Tile.stop] at this
    omega

theorem congr (h : Tiled r m first row) (hy : ∀ t ∈ row, ∀ y, t.Marks y → m'.byte y = m.byte y) :
    Tiled r m' first row :=
  ⟨h.row, fun t ht => (h.written t ht).congr (h.fits ht) (hy t ht), h.low_le, h.aligned, h.high_lt⟩

end Tiled

/-! ## A row with a hole -/

/-- A row whose tags are in memory, but for those of one block `t`. Anything may stand in the
    space of `t`, from its header up to the header behind it. -/
structure Holed (r : Region) (m : Memory) (first : Nat) (L : List Tile) (t : Tile)
    (R : List Tile) : Prop where
  row : Row r.high first true (L ++ t :: R)
  written : ∀ u ∈ L ++ R, u.Written m
  low_le : r.low + 32 ≤ first
  aligned : first % 8 = 0
  high_lt : r.high < wordLimit
  block : 32 ≤ t.tag.size

theorem Tiled.hole {r : Region} {m : Memory} {first : Nat} {L R : List Tile} {t : Tile}
    (h : Tiled r m first (L ++ t :: R)) (ht : 32 ≤ t.tag.size) : Holed r m first L t R :=
  ⟨h.row, fun u hu =>
    h.written u (by simp only [List.mem_append, List.mem_cons] at hu ⊢; exact hu.imp_right .inr),
    h.low_le, h.aligned, h.high_lt, ht⟩

namespace Holed

variable {r : Region} {m m' : Memory} {first : Nat} {L M R : List Tile} {t u v : Tile}

/-- One hole in place of several blocks. -/
theorem cover (h : Tiled r m first (L ++ (M ++ v :: R)))
    (hM : Spans t.bp t.tag.prevAlloc M t.stop t.tag.alloc) (h8 : t.tag.size % 8 = 0)
    (h32 : 32 ≤ t.tag.size) : Holed r m first L t (v :: R) := by
  refine ⟨h.row.cover hM h8 h32, fun u hu => h.written u ?_, h.low_le, h.aligned, h.high_lt, h32⟩
  rcases List.mem_append.mp hu with hu | hu
  · exact List.mem_append_left _ hu
  · exact List.mem_append_right _ (List.mem_append_right _ hu)

/-- Blocks over the space of the hole make the row whole. -/
theorem fill (h : Holed r m first L t (v :: R))
    (hM : Spans t.bp t.tag.prevAlloc M t.stop t.tag.alloc) (hw : ∀ u ∈ M, u.Written m) :
    Tiled r m first (L ++ (M ++ v :: R)) := by
  refine ⟨h.row.replace (List.cons_ne_nil _ _) hM, ?_, h.low_le, h.aligned, h.high_lt⟩
  intro u hu
  rcases List.mem_append.mp hu with hu | hu
  · exact h.written u (List.mem_append_left _ hu)
  · rcases List.mem_append.mp hu with hu | hu
    · exact hw u hu
    · exact h.written u (List.mem_append_right _ hu)

theorem ne_hole (h : Holed r m first L t R) (hu : u ∈ L ++ R) : u ≠ t := by
  rintro rfl
  have := (List.nodup_cons.mp (List.perm_middle.nodup_iff.mp h.row.nodup)).1
  exact this hu

theorem mem_row (hu : u ∈ L ++ R) : u ∈ L ++ t :: R :=
  (List.perm_middle.mem_iff).mpr (List.mem_cons_of_mem t hu)

theorem fits (h : Holed r m first L t R) (hu : u ∈ L ++ t :: R) : u.Fits :=
  h.row.fits (by have := h.low_le; omega) h.high_lt hu

/-- What happens within the hole is of no concern to the other blocks. -/
theorem congr (h : Holed r m first L t R)
    (hy : ∀ y, y + 8 < t.bp ∨ t.stop ≤ y + 8 → m'.byte y = m.byte y) :
    Holed r m' first L t R := by
  refine ⟨h.row, ?_, h.low_le, h.aligned, h.high_lt, h.block⟩
  intro u hu
  refine (h.written u hu).congr (h.fits (mem_row hu)) fun y hm => hy y ?_
  exact (h.row.marks_apart (by have := h.low_le; omega) h.high_lt (mem_row hu) (by simp)
    (h.ne_hole hu) hm).2 h.block

/-- The block behind the hole is told what the last block in it is going to be. -/
theorem turn (h : Holed r m first L t (v :: R)) (x : Bool) :
    ∃ m', r.setPrevAlloc v.bp x m = .ok () m' ∧
      Holed r m' first L ⟨t.bp, ⟨t.tag.size, t.tag.prevAlloc, x⟩⟩ (v.withPrev x :: R) ∧
      ∀ y, ¬ v.Marks y → m'.byte y = m.byte y := by
  have mv : v ∈ L ++ v :: R := by simp
  have hb := h.row.bounds (mem_row mv)
  have hlow := h.low_le
  obtain ⟨m', hrun, hw, hframe⟩ :=
    Region.setPrevAlloc_spec x (h.written v mv) (h.fits (mem_row mv)) (by omega)
    (Nat.le_trans (Nat.le_add_right _ _) hb.2.1) (Nat.le_add_right_of_le hb.2.1)
  refine ⟨m', hrun, ⟨?_, ?_, h.low_le, h.aligned, h.high_lt, h.block⟩, hframe⟩
  · obtain ⟨c, q, hL, hr⟩ := Row.append_cons.mp h.row
    obtain ⟨rfl, rfl, h8⟩ := hr.head
    refine Row.append_cons.mpr ⟨_, _, hL, Row.block rfl h8 h.block ?_⟩
    exact (hr.tail (.inl (List.cons_ne_nil _ _))).2.withPrev x
  · intro u hu
    by_cases he : u = v.withPrev x
    · exact he ▸ hw
    · have hu' : u ∈ L ++ R := by
        rcases List.mem_append.mp hu with hu | hu
        · exact List.mem_append_left _ hu
        · exact List.mem_append_right _ ((List.mem_cons.mp hu).resolve_left he)
      have mu : u ∈ L ++ v :: R := mem_row hu'
      have hne : u ≠ v := by
        rintro rfl
        have := List.nodup_append.mp h.row.nodup
        rcases List.mem_append.mp hu' with hu' | hu'
        · exact this.2.2 u hu' u (by simp) rfl
        · exact (List.nodup_cons.mp (List.nodup_cons.mp this.2.1).2).1 hu'
      refine (h.written u mu).congr (h.fits (mem_row mu)) fun y hm => hframe y ?_
      exact (h.row.marks_apart (by omega) h.high_lt (mem_row mu) (mem_row mv) hne hm).1

/-- The hole is filled with tag words of `M`, and then the block behind it is told of the last
    of them. -/
theorem refit (h : Holed r m first L t (v :: R)) {x : Bool}
    (hM : Spans t.bp t.tag.prevAlloc M t.stop x) (hw : ∀ u ∈ M, u.Written m')
    (hy : ∀ y, (∀ u ∈ M, ¬ u.Marks y) → m'.byte y = m.byte y) :
    ∃ m'', r.setPrevAlloc v.bp x m' = .ok () m'' ∧
      Tiled r m'' first (L ++ (M ++ v.withPrev x :: R)) ∧
      ∀ y, Tiled.Plain (L ++ (M ++ v.withPrev x :: R)) y → m''.byte y = m.byte y := by
  have hlow := h.low_le
  have hb := h.row.bounds (t := t) (by simp)
  have hlt := h.high_lt
  have fitsM : ∀ u ∈ M, u.Fits := fun u hu => by
    obtain ⟨h1, h2, h3, h4⟩ := hM.bounds hu
    exact ⟨by omega, h3, fun _ => h4, by omega⟩
  have within : ∀ u ∈ M, ∀ y, u.Marks y → t.bp ≤ y + 8 ∧ y + 8 < t.stop := fun u hu y hm => by
    obtain ⟨h1, h2, h3, h4⟩ := hM.bounds hu
    have := hm.bounds (fitsM u hu)
    simp only [Tile.stop] at *
    omega
  have hole : Holed r m' first L t (v :: R) := h.congr fun y hout => hy y fun u hu hm => by
    have := within u hu y hm
    omega
  obtain ⟨m'', hrun, hole', hframe⟩ := hole.turn x
  have hvbp : v.bp = t.stop := by
    obtain ⟨h1, -⟩ := h.row.spans_one
    exact h1.2.2.2.2.1.symm
  refine ⟨m'', hrun, hole'.fill hM ?_, ?_⟩
  · intro u hu
    refine (hw u hu).congr (fitsM u hu) fun y hm => hframe y ?_
    intro hv
    have h1 := within u hu y hm
    have h2 := (hv.bounds (h.fits (by simp))).1
    omega
  · intro y hp
    rw [hframe y (hp (v.withPrev x) (by simp)), hy y fun u hu => hp u (by simp [hu])]

end Holed

/-! ## Guarded bytes -/

/-- The byte lies below the first header, or in the payload of an allocated block. -/
def Guarded (first : Nat) (held : List Entry) (x : Nat) : Prop :=
  x + 8 < first ∨ ∃ e ∈ held, e.bp ≤ x ∧ x + 8 < e.bp + e.size

namespace Guarded

variable {r : Region} {m : Memory} {first x : Nat} {row : List Tile} {t : Tile}

theorem mono {held held' : List Entry} (h : Guarded first held x) (hs : ∀ e ∈ held, e ∈ held') :
    Guarded first held' x :=
  h.imp_right fun ⟨e, he, hx⟩ => ⟨e, hs e he, hx⟩

theorem outside_header (h : Guarded first (held row) x) (ht : Tiled r m first row) (hm : t ∈ row) :
    x + 8 < t.bp ∨ t.bp ≤ x := by
  have hb := ht.row.bounds hm
  rcases h with h | ⟨e, he, h1, h2⟩
  · omega
  · obtain ⟨u, hu, -, rfl⟩ := mem_held.mp he
    simp only [Tile.entry] at h1 h2
    rcases ht.row.apart hu hm with rfl | ⟨h3, -⟩ | ⟨h3, h4⟩
    · exact .inr h1
    · simp only [Tile.stop] at h3; omega
    · simp only [Tile.stop] at h3; omega

theorem outside_free (h : Guarded first (held row) x) (ht : Tiled r m first row) (hm : t ∈ row)
    (hf : t.tag.alloc = false) : x + 8 < t.bp ∨ t.stop ≤ x + 8 := by
  have hb := ht.row.bounds hm
  rcases h with h | ⟨e, he, h1, h2⟩
  · omega
  · obtain ⟨u, hu, ha, rfl⟩ := mem_held.mp he
    simp only [Tile.entry] at h1 h2
    rcases ht.row.apart hu hm with rfl | ⟨h3, -⟩ | ⟨h3, h4⟩
    · rw [ha] at hf; cases hf
    · simp only [Tile.stop] at h3 ⊢; omega
    · simp only [Tile.stop] at h3 ⊢; omega

theorem not_marks (h : Guarded first (held row) x) (ht : Tiled r m first row) (hm : t ∈ row) :
    ¬ t.Marks x := by
  have h1 := h.outside_header ht hm
  have h2 := h.outside_free ht hm
  rintro (hx | ⟨hf, hx⟩)
  · omega
  · have := h2 hf
    have := (ht.fits hm).room hf
    simp only [Tile.stop] at *
    omega

end Guarded

end BoundaryTag
