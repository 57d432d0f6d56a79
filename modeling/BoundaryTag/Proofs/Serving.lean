/-
  BoundaryTag.Proofs.Serving — how a heap serves a request, from a free block or from a grown arena.

  A request is placed in the first block that fits. If there is none, the arena grows by the
  least number of bytes that will do and that is a multiple of two words (`stretch`), and the
  request is placed in the block that this gives: no other one fits.

  Proved: a search fails just when no free block fits (`Laid.find_none_iff`); what a heap looks like
  that grew for a request (`grow_grown`), and that the request is then placed in its last block
  (`Grown.find`); and that releasing what was placed restores row and index (`take_release`).
-/

import BoundaryTag.Proofs.Carving

namespace BoundaryTag

namespace Heap

variable {A : Type} [Arena A] [LawfulArena A] {g h h' : Heap A} {row L R : List Tile} {idx : Index}
  {request size b p : Nat} {t v : Tile} {e : Entry} {log : Bool}

/-! ## Placing a request -/

/-- A free block that is big enough is carved, and the arena is left alone. -/
theorem take_carved (hl : Laid g (L ++ t :: v :: R) idx) (hfree : t.tag.alloc = false)
    (hsize : blockSize request = .ok size) (hle : size ≤ t.tag.size) (log : Bool) :
    ∃ h' row' idx', take request size t.bp log g = .ok t.bp h' ∧ Laid h' row' idx' ∧ Later g h' ∧
      h'.arena = g.arena ∧
      Carved L t v R size (idx.erase t.entry) row' idx' := by
  obtain ⟨h8, h32, -, -⟩ := blockSize_ok hsize
  obtain ⟨h', row', idx', hrun, hl', hlater, harena, hcarved, -, -⟩ :=
    take_spec hl hfree h8 h32 hle request log
  exact ⟨h', row', idx', hrun, hl', hlater, harena, hcarved⟩

/-! ## Finding a block -/

/-- What is known of the index of a laid heap. -/
theorem Laid.filed_size (hl : Laid h row idx) {c : Nat} (he : e ∈ idx c) :
    e.size % 8 = 0 ∧ 32 ≤ e.size := by
  obtain ⟨t, ht, hfree, rfl⟩ := mem_vacant.mp ((hl.sound.filed.covers c e).mp he).2
  exact ⟨(hl.tiled.row.bounds ht).2.2.1, hl.tiled.row.size_of_free ht hfree⟩

theorem Laid.settled (hl : Laid h row idx) (hfind : idx.find size = some e) : idx.Settled e :=
  have hfiles := hl.sound.filed.files
  Index.settled_of_find hfiles.classed
    (fun _ _ he => hl.filed_size he) hfiles.ascending hfiles.nodup hfind

/-- A search finds nothing just when no free tile fits. -/
theorem Laid.find_none_iff (hl : Laid h row idx) : idx.find size = none ↔
    ∀ t ∈ row, t.tag.alloc = false → t.tag.size < size := by
  constructor
  · intro hfind t ht hfree
    have hin : t.entry ∈ idx (sizeClass t.entry.size) :=
      hl.sound.filed.mem (mem_vacant.mpr ⟨t, ht, hfree, rfl⟩)
    exact Index.find_none hl.sound.filed.files.classed hfind hin
  · intro hsmall
    cases hfind : idx.find size with
    | none => rfl
    | some e =>
      obtain ⟨L, t, v, R, rfl, hfree, rfl, hle⟩ := hl.found hfind
      exact absurd (hsmall t (by simp) hfree) (Nat.not_lt.mpr hle)

/-- A free tile that alone fits is found. -/
theorem Laid.find_only (hl : Laid h row idx) (ht : t ∈ row) (hfree : t.tag.alloc = false)
    (hle : size ≤ t.tag.size) (honly : ∀ u ∈ row, u.tag.alloc = false → size ≤ u.tag.size → u = t) :
    idx.find size = some t.entry := by
  refine Index.find_only hl.sound.filed.files.classed
    (hl.sound.filed.mem (mem_vacant.mpr ⟨t, ht, hfree, rfl⟩)) hle ?_
  intro c f hf hfit
  obtain ⟨u, hu, hu', rfl⟩ := mem_vacant.mp ((hl.sound.filed.covers c f).mp hf).2
  rw [honly u hu hu' hfit]

/-! ## Growing -/

/-- The bytes that a heap asks its arena for when no block of `size` bytes is free. -/
def stretch (c : Config) (size : Nat) : Nat := (growth c size + growth c size % 2) * 8

/-- They are the least multiple of two words that has room for the block and for a chunk. -/
theorem stretch_least (c : Config) {size : Nat} (h8 : size % 8 = 0) :
    stretch c size % 16 = 0 ∧ max size (c.chunkWords * 8) ≤ stretch c size ∧
    ∀ n, n % 16 = 0 → max size (c.chunkWords * 8) ≤ n → stretch c size ≤ n := by
  have hmod : max size (c.chunkWords * 8) % 8 = 0 := by omega
  simp only [stretch, growth, wordSize]
  generalize max size (c.chunkWords * 8) = bytes at hmod
  exact ⟨by omega, by omega, fun n h₁ h₂ => by omega⟩

/-- The bytes can be counted. -/
theorem stretch_lt (c : Config) (hmax : size ≤ maxChunkSize) : stretch c size < wordLimit := by
  have hchunk : c.chunkBytes ≤ 9223372036854775800 := c.chunkBytes_le
  have hwords := c.chunkWords_mul
  have hmax' : size ≤ 9223372036854775800 := hmax
  have hle : max size (c.chunkWords * 8) ≤ 9223372036854775800 := by omega
  simp only [stretch, growth, wordSize, wordLimit]
  generalize max size (c.chunkWords * 8) = bytes at hle
  omega

/-- A heap that grew by one block: it starts at `b`, at the free block below the old end if
    there is one and else at the old end, and goes up to the new end. -/
structure Grown (h g : Heap A) (row : List Tile) (idx : Index) (size b : Nat) (X W : List Tile)
    (q : Bool) (idx' : Index) : Prop where
  row_eq : row = X ++ W ++ [⟨h.bounds.high, ⟨0, q, true⟩⟩]
  below : W = [] ∧ q = true ∧ b = h.bounds.high ∨ ∃ w, W = [w] ∧ w.tag.alloc = false ∧ b = w.bp
  laid : Laid g (X ++ gap b g.bounds.high :: ⟨g.bounds.high, ⟨0, false, true⟩⟩ :: []) idx'
  index : idx' = (W.foldl (fun i x => i.erase x.entry) idx).insert (gap b g.bounds.high).entry
  later : Later h g
  high : g.bounds.high = h.bounds.high + stretch h.config size

/-- The arena gives the bytes. -/
theorem grow_grown (hl : Laid h row idx) (hsize : blockSize request = .ok size) {start : Nat}
    {a : A} (hx : Arena.extend (stretch h.config size) h.arena = .ok start a) :
    ∃ b g X W q idx', grow (growth h.config size) h = .ok b g ∧ g.arena = a ∧
      Grown h g row idx size b X W q idx' := by
  obtain ⟨-, h32, -, hmax⟩ := blockSize_ok hsize
  obtain ⟨hlt, h4, -⟩ := growth_bounds h.config h32 hmax
  obtain ⟨b, g, L, q, row', idx', hgrow, harena, hl', hlater, hhigh, rfl, hmerged, -⟩ :=
    grow_met hl hlt h4 (stretch_lt h.config hmax) hx
  have hspaced : Spaced L := fun x hx => hl.sound.spaced x (List.mem_append_left _ hx)
  have hbelow : ∀ x ∈ L, x.bp < h.bounds.high := by
    intro x hx
    have hstop := (hl.tiled.row.before hx).1
    have h32 := (hl.tiled.row.before hx).2
    simp only [Tile.stop] at hstop
    omega
  have hL : (⟨h.bounds.high, ⟨stretch h.config size, q, false⟩⟩ : Tile) ∉ L :=
    fun hin => Nat.lt_irrefl _ (hbelow _ hin)
  obtain ⟨X, W, rfl, hW, hrow, hidx⟩ := hmerged.last hL (by simp) hspaced rfl
  rw [hrow] at hl'
  exact ⟨b, g, X, W, q, idx', hgrow, harena, rfl, hW, hl', hidx, hlater, hhigh⟩

/-- The arena fails. -/
theorem grow_refused (hl : Laid h row idx) (hsize : blockSize request = .ok size) {err : ArenaError}
    {a : A} (hx : Arena.extend (stretch h.config size) h.arena = .error err a) :
    ∃ g, grow (growth h.config size) h = .error (.refused (.arena err)) g ∧ Same h g ∧
      g.arena = a := by
  obtain ⟨-, h32, -, hmax⟩ := blockSize_ok hsize
  exact grow_denied hl.sane (growth_bounds h.config h32 hmax).1 (stretch_lt h.config hmax) hx

namespace Grown

variable {X W : List Tile} {q : Bool} {idx' : Index}

theorem le_high (hg : Grown h g row idx size b X W q idx') (hl : Laid h row idx) :
    b ≤ h.bounds.high := by
  rcases hg.below with ⟨-, -, hb⟩ | ⟨w, rfl, -, hb⟩
  · exact Nat.le_of_eq hb
  · have hin : w ∈ row := by rw [hg.row_eq]; simp
    obtain ⟨-, hstop, -⟩ := hl.tiled.row.bounds hin
    simp only [Tile.stop] at hstop
    omega

/-- The new block has room for the request. -/
theorem room (hg : Grown h g row idx size b X W q idx') (hl : Laid h row idx) (h8 : size % 8 = 0) :
    size ≤ (gap b g.bounds.high).tag.size := by
  have hle := hg.le_high hl
  have hroom := (stretch_least h.config h8).2.1
  have hhigh := hg.high
  show size ≤ g.bounds.high - b
  omega

/-- It is the only one that has. -/
theorem find (hg : Grown h g row idx size b X W q idx') (hl : Laid h row idx) (h8 : size % 8 = 0)
    (hfind : idx.find size = none) :
    idx'.find size = some (gap b g.bounds.high).entry := by
  refine hg.laid.find_only (by simp) rfl (hg.room hl h8) ?_
  intro u hu hfree hle
  simp only [List.mem_append, List.mem_cons, List.not_mem_nil, or_false] at hu
  rcases hu with hu | hu | hu
  · have hin : u ∈ row := by rw [hg.row_eq]; simp [hu]
    exact absurd hle (Nat.not_le.mpr (hl.find_none_iff.mp hfind u hin hfree))
  · exact hu
  · rw [hu] at hfree
    cases hfree

end Grown

/-- A block for a request is an answer to it, if the check after it has room. -/
theorem Answers.allocate {row' : List Tile} {idx' : Index} (hn : request ≠ 0)
    (hrun : allocateBlock request h = .ok p h') (hl' : Laid h' row' idx') :
    Answers (allocate request) h (some p) h' := by
  refine .checked hl' .allocate ?_
  simp only [Heap.allocate, hn, if_false, HeapM.bind_apply, attempt_ok hrun]

/-! ## Releasing what was placed -/

theorem release_merged (hl : Laid h (L ++ t :: v :: R) idx) (ha : t.tag.alloc = true)
    (h32 : 32 ≤ t.tag.size) :
    ∃ h' b row' idx', Answers (release t.bp) h () h' ∧ Laid h' row' idx' ∧
      h'.arena = h.arena ∧ Later h h' ∧
      Merged ⟨t.bp, ⟨t.tag.size, t.tag.prevAlloc, false⟩⟩
        (L ++ ⟨t.bp, ⟨t.tag.size, t.tag.prevAlloc, false⟩⟩ :: v.withPrev false :: R)
        idx b row' idx' := by
  obtain ⟨s', b, row', idx', hrun, hl', -, hmerged⟩ := free_merged hl ha
  have he : t.entry ∈ live (L ++ t :: v :: R) := hl.tiled.mem_live.mpr ⟨t, by simp, ha, rfl, h32⟩
  have hlater : Later h { h with store := s' } := ⟨rfl, rfl, rfl, Nat.le_refl _⟩
  have hsame := same_told { h with store := s' } (.released t.tag.size t.bp)
  have htry := tryRelease_answers hl he hrun hl'
  exact ⟨_, b, row', idx', htry.release, hl'.same hsame, told_arena _ _,
    hlater.trans hsame.later, hmerged⟩

/-- What was placed in a settled block is released again: the row and the index are as they were. -/
theorem take_release (hl : Laid g (L ++ t :: v :: R) idx) (hfree : t.tag.alloc = false)
    (hsize : blockSize request = .ok size) (hle : size ≤ t.tag.size) (hset : idx.Settled t.entry)
    (log : Bool) :
    ∃ h₁ row₁ idx₁ h₂, take request size t.bp log g = .ok t.bp h₁ ∧ Laid h₁ row₁ idx₁ ∧
      h₁.arena = g.arena ∧ Later g h₁ ∧
      Answers (release t.bp) h₁ () h₂ ∧ Laid h₂ (L ++ t :: v :: R) idx ∧ h₂.arena = g.arena ∧
      Later g h₂ := by
  obtain ⟨h₁, row₁, idx₁, hrun, hl₁, hlater, harena, hcarved⟩ := take_carved hl hfree hsize hle log
  obtain ⟨-, h32, -, -⟩ := blockSize_ok hsize
  obtain ⟨u, R', rfl, hundone⟩ := hcarved.undone hl.sound hfree h32 hset hl₁.sound.filed.files.nodup
  obtain ⟨h₂, b, row₂, idx₂, hrelease, hl₂, harena₂, hlater₂, hmerged⟩ :=
    release_merged hl₁ rfl (Nat.le_trans h32 (le_allotted hle))
  obtain ⟨rfl, rfl⟩ := hundone b row₂ idx₂ hmerged
  exact ⟨h₁, _, idx₁, h₂, hrun, hl₁, harena, hlater, hrelease, hl₂, harena₂.trans harena,
    hlater.trans hlater₂⟩

end Heap

end BoundaryTag
