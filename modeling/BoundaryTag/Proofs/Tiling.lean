/-
  BoundaryTag.Proofs.Tiling — blocks that lie back to back, without the memory they lie in.

  A `Tile` is a block as a walk meets it: its payload address and the tag in its header. A list of
  tiles `Spans` the space between two addresses when each tile starts where the one before it ends
  and knows whether that one is allocated. A `Row` goes up to the high end and is closed by the
  epilogue, a tile of size zero that counts as allocated. So every block has a successor in its row.

  Proved: any two tiles of a row are apart (`Row.apart`); others may take the space of a tile
  (`Row.replace`); a row in which no two free tiles touch is determined by its allocated tiles
  (`Row.eq_of_held_eq`), so that how free space came to be merged leaves no trace.
-/

import BoundaryTag.Tag

namespace BoundaryTag

/-- Where a block's payload starts, and the size of the block. -/
structure Entry where
  bp : Nat
  size : Nat
  deriving DecidableEq, Repr

/-- A block as a walk over its heap meets it. -/
structure Tile where
  bp : Nat
  tag : Tag
  deriving DecidableEq, Repr

namespace Tile

/-- The payload address of the next block. -/
def stop (t : Tile) : Nat := t.bp + t.tag.size

def entry (t : Tile) : Entry := ⟨t.bp, t.tag.size⟩

def withPrev (t : Tile) (p : Bool) : Tile := { t with tag := { t.tag with prevAlloc := p } }

@[simp] theorem withPrev_bp (t : Tile) (p : Bool) : (t.withPrev p).bp = t.bp := rfl
@[simp] theorem withPrev_size (t : Tile) (p : Bool) : (t.withPrev p).tag.size = t.tag.size := rfl
@[simp] theorem withPrev_alloc (t : Tile) (p : Bool) : (t.withPrev p).tag.alloc = t.tag.alloc := rfl
@[simp] theorem withPrev_prevAlloc (t : Tile) (p : Bool) : (t.withPrev p).tag.prevAlloc = p := rfl
@[simp] theorem withPrev_stop (t : Tile) (p : Bool) : (t.withPrev p).stop = t.stop := rfl
@[simp] theorem withPrev_entry (t : Tile) (p : Bool) : (t.withPrev p).entry = t.entry := rfl
@[simp] theorem withPrev_self (t : Tile) : t.withPrev t.tag.prevAlloc = t := rfl

end Tile

/-- Blocks back to back from `a` to `b`. The block before the first is allocated or not as `p` says,
    and the last one as `q` says. -/
def Spans : Nat → Bool → List Tile → Nat → Bool → Prop
  | a, p, [], b, q => a = b ∧ p = q
  | a, p, t :: ts, b, q =>
    t.bp = a ∧ t.tag.prevAlloc = p ∧ t.tag.size % 8 = 0 ∧ 32 ≤ t.tag.size ∧
      Spans t.stop t.tag.alloc ts b q

/-- Blocks back to back from `a` to the high end, and the epilogue there. -/
inductive Row (high : Nat) : Nat → Bool → List Tile → Prop
  | epilogue (p : Bool) : Row high high p [⟨high, ⟨0, p, true⟩⟩]
  | block {a : Nat} {p : Bool} {tag : Tag} {ts : List Tile} : tag.prevAlloc = p → tag.size % 8 = 0 →
      32 ≤ tag.size → Row high (a + tag.size) tag.alloc ts → Row high a p (⟨a, tag⟩ :: ts)

/-- No free tile follows a free one. -/
def Spaced (ts : List Tile) : Prop := ∀ t ∈ ts, t.tag.alloc = false → t.tag.prevAlloc = true

/-- The allocated tiles. In a row the epilogue is one of them. -/
def held (ts : List Tile) : List Entry := (ts.filter fun t => t.tag.alloc).map Tile.entry

@[simp] theorem held_nil : held [] = [] := rfl

@[simp] theorem held_append (xs ys : List Tile) : held (xs ++ ys) = held xs ++ held ys := by
  simp [held]

theorem held_cons_alloc {t : Tile} (h : t.tag.alloc = true) (ts : List Tile) :
    held (t :: ts) = t.entry :: held ts := by
  simp [held, h]

theorem held_cons_free {t : Tile} (h : t.tag.alloc = false) (ts : List Tile) :
    held (t :: ts) = held ts := by
  simp [held, h]

@[simp] theorem held_withPrev (t : Tile) (p : Bool) (ts : List Tile) :
    held (t.withPrev p :: ts) = held (t :: ts) := by
  cases h : t.tag.alloc
  · rw [held_cons_free h, held_cons_free (t := t.withPrev p) h]
  · rw [held_cons_alloc h, held_cons_alloc (t := t.withPrev p) h, Tile.withPrev_entry]

theorem mem_held {ts : List Tile} {e : Entry} : e ∈ held ts ↔ ∃ t ∈ ts, t.tag.alloc = true ∧
    t.entry = e := by
  simp [held, and_assoc]

theorem held_of_free {ts : List Tile} (h : ∀ t ∈ ts, t.tag.alloc = false) : held ts = [] := by
  induction ts with
  | nil => rfl
  | cons t ts ih =>
    rw [held_cons_free (h t List.mem_cons_self), ih fun u hu => h u (List.mem_cons_of_mem _ hu)]

/-- The free tiles. -/
def vacant (ts : List Tile) : List Entry := (ts.filter fun t => !t.tag.alloc).map Tile.entry

@[simp] theorem vacant_nil : vacant [] = [] := rfl

@[simp] theorem vacant_append (xs ys : List Tile) : vacant (xs ++ ys) = vacant xs ++ vacant ys := by
  simp [vacant]

theorem vacant_cons_alloc {t : Tile} (h : t.tag.alloc = true) (ts : List Tile) :
    vacant (t :: ts) = vacant ts := by
  simp [vacant, h]

theorem vacant_cons_free {t : Tile} (h : t.tag.alloc = false) (ts : List Tile) :
    vacant (t :: ts) = t.entry :: vacant ts := by
  simp [vacant, h]

theorem vacant_of_free {ts : List Tile} (h : ∀ t ∈ ts, t.tag.alloc = false) :
    vacant ts = ts.map Tile.entry := by
  rw [vacant, List.filter_eq_self.mpr fun t ht => by rw [h t ht]; rfl]

@[simp] theorem vacant_withPrev (t : Tile) (p : Bool) (ts : List Tile) :
    vacant (t.withPrev p :: ts) = vacant (t :: ts) := by
  cases h : t.tag.alloc
  · rw [vacant_cons_free h, vacant_cons_free (t := t.withPrev p) h, Tile.withPrev_entry]
  · rw [vacant_cons_alloc h, vacant_cons_alloc (t := t.withPrev p) h]

theorem mem_vacant {ts : List Tile} {e : Entry} : e ∈ vacant ts ↔ ∃ t ∈ ts, t.tag.alloc = false ∧
    t.entry = e := by
  simp [vacant, and_assoc]

/-! ## Spans -/

theorem spans_append {a b : Nat} {p q : Bool} {xs ys : List Tile} :
    Spans a p (xs ++ ys) b q ↔ ∃ c r, Spans a p xs c r ∧ Spans c r ys b q := by
  induction xs generalizing a p with
  | nil =>
    constructor
    · intro h; exact ⟨a, p, ⟨rfl, rfl⟩, h⟩
    · rintro ⟨c, r, ⟨rfl, rfl⟩, h⟩; exact h
  | cons t xs ih =>
    simp only [List.cons_append, Spans, ih]
    constructor
    · rintro ⟨h1, h2, h3, h4, c, r, h5, h6⟩; exact ⟨c, r, ⟨h1, h2, h3, h4, h5⟩, h6⟩
    · rintro ⟨c, r, ⟨h1, h2, h3, h4, h5⟩, h6⟩; exact ⟨h1, h2, h3, h4, c, r, h5, h6⟩

theorem Spans.le {a b : Nat} {p q : Bool} {ts : List Tile} (h : Spans a p ts b q) : a ≤ b := by
  induction ts generalizing a p with
  | nil => exact Nat.le_of_eq h.1
  | cons t ts ih =>
    obtain ⟨rfl, -, -, -, h⟩ := h
    have := ih h
    simp only [Tile.stop] at this
    omega

theorem Spans.bounds {a b : Nat} {p q : Bool} {ts : List Tile} (h : Spans a p ts b q) {t : Tile}
    (ht : t ∈ ts) :
    a ≤ t.bp ∧ t.stop ≤ b ∧ t.tag.size % 8 = 0 ∧ 32 ≤ t.tag.size := by
  induction ts generalizing a p with
  | nil => cases ht
  | cons u ts ih =>
    obtain ⟨rfl, -, h8, h32, h⟩ := h
    have hle := h.le
    simp only [Tile.stop] at hle
    rcases List.mem_cons.mp ht with rfl | ht
    · exact ⟨Nat.le_refl _, by simpa only [Tile.stop] using hle, h8, h32⟩
    · obtain ⟨h1, h2, h3, h4⟩ := ih h ht
      simp only [Tile.stop] at h1
      exact ⟨by omega, h2, h3, h4⟩

theorem Spans.length {a b : Nat} {p q : Bool} {ts : List Tile} (h : Spans a p ts b q) :
    (b - a) % 8 = 0 ∧ (ts ≠ [] → a + 32 ≤ b) := by
  induction ts generalizing a p with
  | nil => exact ⟨by rw [h.1, Nat.sub_self], fun hn => absurd rfl hn⟩
  | cons t ts ih =>
    obtain ⟨rfl, -, h8, h32, h⟩ := h
    have hle := h.le
    have := (ih h).1
    simp only [Tile.stop] at *
    exact ⟨by omega, fun _ => by omega⟩

theorem Spans.end_unique {a b b' : Nat} {p q q' : Bool} {ts : List Tile} (h : Spans a p ts b q)
    (h' : Spans a p ts b' q') : b = b' ∧ q = q' := by
  induction ts generalizing a p with
  | nil => exact ⟨h.1.symm.trans h'.1, h.2.symm.trans h'.2⟩
  | cons t ts ih => exact ih h.2.2.2.2 h'.2.2.2.2

/-! ## Rows -/

namespace Row

variable {high a : Nat} {p : Bool} {row : List Tile}

theorem block' {t : Tile} {ts : List Tile} (h8 : t.tag.size % 8 = 0) (h32 : 32 ≤ t.tag.size)
    (h : Row high t.stop t.tag.alloc ts) : Row high t.bp t.tag.prevAlloc (t :: ts) := by
  obtain ⟨bp, size, prevAlloc, alloc⟩ := t
  exact block rfl h8 h32 h

theorem head {t : Tile} {ts : List Tile} (h : Row high a p (t :: ts)) :
    t.bp = a ∧ t.tag.prevAlloc = p ∧ t.tag.size % 8 = 0 := by
  cases h with
  | epilogue => exact ⟨rfl, rfl, rfl⟩
  | block hp h8 => exact ⟨rfl, hp, h8⟩

/-- A free tile is no epilogue, and the row goes on behind it. -/
theorem tail {t : Tile} {ts : List Tile} (h : Row high a p (t :: ts))
    (ht : ts ≠ [] ∨ t.tag.alloc = false) :
    32 ≤ t.tag.size ∧ Row high t.stop t.tag.alloc ts := by
  cases h with
  | epilogue =>
    rcases ht with h | h
    · exact absurd rfl h
    · cases h
  | block _ _ h32 h => exact ⟨h32, h⟩

theorem ne_nil (h : Row high a p row) : row ≠ [] := by
  cases h <;> exact List.cons_ne_nil _ _

theorem withPrev {t : Tile} {ts : List Tile} (h : Row high a p (t :: ts)) (q : Bool) :
    Row high a q (t.withPrev q :: ts) := by
  cases h with
  | epilogue => exact epilogue q
  | block _ h8 h32 h => exact block rfl h8 h32 h

theorem append_cons {xs ys : List Tile} {y : Tile} :
    Row high a p (xs ++ y :: ys) ↔ ∃ c q, Spans a p xs c q ∧ Row high c q (y :: ys) := by
  induction xs generalizing a p with
  | nil =>
    constructor
    · intro h; exact ⟨a, p, ⟨rfl, rfl⟩, h⟩
    · rintro ⟨c, q, ⟨rfl, rfl⟩, h⟩; exact h
  | cons t xs ih =>
    rw [List.cons_append]
    constructor
    · intro h
      obtain ⟨h1, h2, h3⟩ := h.head
      obtain ⟨h4, h5⟩ := h.tail (.inl (by simp))
      obtain ⟨c, q, h6, h7⟩ := ih.mp h5
      exact ⟨c, q, ⟨h1, h2, h3, h4, h6⟩, h7⟩
    · rintro ⟨c, q, ⟨rfl, rfl, h3, h4, h6⟩, h7⟩
      exact block' h3 h4 (ih.mpr ⟨c, q, h6, h7⟩)

theorem le (h : Row high a p row) : a ≤ high := by
  induction h with
  | epilogue => exact Nat.le_refl _
  | block => omega

/-- What is true of any tile: it is a block, or the epilogue. -/
theorem bounds (h : Row high a p row) {t : Tile} (ht : t ∈ row) :
    a ≤ t.bp ∧ t.stop ≤ high ∧ t.tag.size % 8 = 0 ∧
      (32 ≤ t.tag.size ∨ t.bp = high ∧ t.tag.size = 0 ∧ t.tag.alloc = true) := by
  induction h with
  | epilogue p =>
    obtain rfl := List.mem_singleton.mp ht
    exact ⟨Nat.le_refl _, Nat.le_refl _, rfl, .inr ⟨rfl, rfl, rfl⟩⟩
  | block _ h8 h32 h ih =>
    have hle := h.le
    rcases List.mem_cons.mp ht with rfl | ht
    · exact ⟨Nat.le_refl _, hle, h8, .inl h32⟩
    · obtain ⟨h1, h2⟩ := ih ht
      exact ⟨by omega, h2⟩

theorem size_of_free (h : Row high a p row) {t : Tile} (ht : t ∈ row) (hf : t.tag.alloc = false) :
    32 ≤ t.tag.size := by
  rcases (h.bounds ht).2.2.2 with h | ⟨-, -, h⟩
  · exact h
  · rw [hf] at h; cases h

theorem aligned (h : Row high a p row) (ha : a % 8 = 0) {t : Tile} (ht : t ∈ row) :
    t.bp % 8 = 0 := by
  induction h with
  | epilogue p => rwa [List.mem_singleton.mp ht]
  | block _ h8 _ _ ih =>
    rcases List.mem_cons.mp ht with rfl | ht
    · exact ha
    · exact ih (by omega) ht

theorem high_aligned (h : Row high a p row) (ha : a % 8 = 0) : high % 8 = 0 := by
  induction h with
  | epilogue => exact ha
  | block _ h8 _ _ ih => exact ih (by omega)

/-- Two tiles are the same one, or one of them is a block that ends before the other starts. -/
theorem apart (h : Row high a p row) {t u : Tile} (ht : t ∈ row) (hu : u ∈ row) :
    t = u ∨ (t.stop ≤ u.bp ∧ 32 ≤ t.tag.size) ∨ (u.stop ≤ t.bp ∧ 32 ≤ u.tag.size) := by
  induction h with
  | epilogue p => exact .inl ((List.mem_singleton.mp ht).trans (List.mem_singleton.mp hu).symm)
  | block _ _ h32 h ih =>
    rcases List.mem_cons.mp ht with rfl | ht <;> rcases List.mem_cons.mp hu with rfl | hu
    · exact .inl rfl
    · exact .inr (.inl ⟨(h.bounds hu).1, h32⟩)
    · exact .inr (.inr ⟨(h.bounds ht).1, h32⟩)
    · exact ih ht hu

theorem eq_of_bp_eq (h : Row high a p row) {t u : Tile} (ht : t ∈ row) (hu : u ∈ row)
    (e : t.bp = u.bp) : t = u := by
  rcases h.apart ht hu with h | ⟨h1, h2⟩ | ⟨h1, h2⟩
  · exact h
  · simp only [Tile.stop] at h1; omega
  · simp only [Tile.stop] at h1; omega

theorem nodup (h : Row high a p row) : row.Nodup := by
  induction h with
  | epilogue => exact List.nodup_cons.mpr ⟨List.not_mem_nil, List.nodup_nil⟩
  | block _ _ h32 h ih =>
    refine List.nodup_cons.mpr ⟨?_, ih⟩
    intro hm
    have := (h.bounds hm).1
    simp only at this
    omega

/-- A block has a successor. -/
theorem split (h : Row high a p row) {t : Tile} (ht : t ∈ row) (h32 : 32 ≤ t.tag.size) :
    ∃ L u R, row = L ++ t :: u :: R := by
  obtain ⟨L, R, rfl⟩ := List.append_of_mem ht
  obtain ⟨c, q, -, h⟩ := append_cons.mp h
  cases R with
  | nil =>
    cases h with
    | epilogue => simp only at h32; omega
    | block _ _ _ h => exact absurd rfl h.ne_nil
  | cons u R => exact ⟨L, u, R, rfl⟩

/-- Other tiles may take the space of `t`, if the last of them is allocated or free as `t` is. -/
theorem replace {L M R : List Tile} {t : Tile} (h : Row high a p (L ++ t :: R)) (ht : R ≠ [])
    (hM : Spans t.bp t.tag.prevAlloc M t.stop t.tag.alloc) : Row high a p (L ++ (M ++ R)) := by
  obtain ⟨c, q, hL, hr⟩ := append_cons.mp h
  obtain ⟨rfl, rfl, -⟩ := hr.head
  obtain ⟨-, hr⟩ := hr.tail (.inl ht)
  obtain ⟨u, R, rfl⟩ := List.exists_cons_of_ne_nil ht
  rw [← List.append_assoc]
  exact append_cons.mpr ⟨_, _, spans_append.mpr ⟨_, _, hL, hM⟩, hr⟩

/-- One tile may take the space of others. -/
theorem cover {L M R : List Tile} {t u : Tile} (h : Row high a p (L ++ (M ++ u :: R)))
    (hM : Spans t.bp t.tag.prevAlloc M t.stop t.tag.alloc) (h8 : t.tag.size % 8 = 0)
    (h32 : 32 ≤ t.tag.size) :
    Row high a p (L ++ t :: u :: R) := by
  rw [← List.append_assoc, append_cons] at h
  obtain ⟨c, q, hc, hr⟩ := h
  obtain ⟨b, x, h1, h2⟩ := spans_append.mp hc
  cases M with
  | nil => have := hM.1; simp only [Tile.stop] at this; omega
  | cons v M =>
    obtain ⟨rfl, rfl, -, -, h2⟩ := h2
    obtain ⟨hbp, hprev, -, -, hM⟩ := hM
    obtain ⟨rfl, rfl⟩ := hM.end_unique h2
    rw [hbp, hprev] at h1
    exact append_cons.mpr ⟨_, _, h1, block' h8 h32 hr⟩

/-- Blocks in the middle of a row, up to the tile behind them. -/
theorem spans_mid {L M R : List Tile} {t v : Tile} (h : Row high a p (L ++ (t :: M ++ v :: R))) :
    Spans t.bp t.tag.prevAlloc (t :: M) v.bp v.tag.prevAlloc := by
  rw [← List.append_assoc] at h
  obtain ⟨c, q, hs, hr⟩ := append_cons.mp h
  obtain ⟨rfl, rfl, -⟩ := hr.head
  obtain ⟨b, x, -, hM⟩ := spans_append.mp hs
  obtain ⟨hbp, hprev, -⟩ := id hM
  rwa [← hbp, ← hprev] at hM

/-- The tile behind a block. -/
theorem spans_one {L R : List Tile} {t u : Tile} (h : Row high a p (L ++ t :: u :: R)) :
    Spans t.bp t.tag.prevAlloc [t] u.bp t.tag.alloc ∧ u.tag.prevAlloc = t.tag.alloc := by
  have hs : Spans t.bp t.tag.prevAlloc [t] u.bp u.tag.prevAlloc := h.spans_mid (M := [])
  obtain ⟨-, -, -, -, -, hprev⟩ := id hs
  rw [← hprev] at hs
  exact ⟨hs, hprev.symm⟩

/-- A free block has a tile behind it, and that one is allocated if the row behind it is spaced. -/
theorem succ_free {L R : List Tile} {t : Tile} (h : Row high a p (L ++ t :: R))
    (ht : t.tag.alloc = false) (hs : Spaced R) :
    ∃ u R', R = u :: R' ∧ u.tag.alloc = true := by
  obtain ⟨c, q, -, hr⟩ := append_cons.mp h
  obtain ⟨-, hr⟩ := hr.tail (.inr ht)
  obtain ⟨u, R, rfl⟩ := List.exists_cons_of_ne_nil hr.ne_nil
  refine ⟨u, R, rfl, ?_⟩
  cases hu : u.tag.alloc with
  | true => rfl
  | false =>
    have := hr.head.2.1
    rw [hs u List.mem_cons_self hu, ht] at this
    cases this

/-- The tile before one that follows a free block. -/
theorem pred_free {L R : List Tile} {t : Tile} (h : Row high a true (L ++ t :: R))
    (ht : t.tag.prevAlloc = false) :
    ∃ L' w, L = L' ++ [w] ∧ w.tag.alloc = false ∧ w.stop = t.bp := by
  obtain ⟨c, q, hL, hr⟩ := append_cons.mp h
  obtain ⟨rfl, rfl, -⟩ := hr.head
  rcases List.eq_nil_or_concat L with rfl | ⟨L', w, rfl⟩
  · exact absurd (hL.2.trans ht) (by decide)
  · rw [List.concat_eq_append] at *
    obtain ⟨_, _, -, -, -, -, -, h1, h2⟩ := spans_append.mp hL
    exact ⟨L', w, rfl, h2.trans ht, h1⟩

/-! ## Free space is determined by what is held -/

theorem le_of_mem_held (h : Row high a p row) {e : Entry} (he : e ∈ held row) : a ≤ e.bp := by
  obtain ⟨t, ht, -, rfl⟩ := mem_held.mp he
  exact (h.bounds ht).1

/-- Behind a free tile comes an allocated one. -/
theorem held_of_prev_free (h : Row high a false row) (hs : Spaced row) :
    ∃ size rest, held row = ⟨a, size⟩ :: rest := by
  obtain ⟨t, ts, rfl⟩ := List.exists_cons_of_ne_nil h.ne_nil
  obtain ⟨rfl, hp, -⟩ := h.head
  cases ha : t.tag.alloc with
  | false => rw [hs t List.mem_cons_self ha] at hp; cases hp
  | true => exact ⟨t.tag.size, held ts, held_cons_alloc ha ts⟩

/-- Rows over the same space with the same allocated tiles, and no two free tiles side by side,
    are the same: between two allocated tiles there is one free tile or none. -/
theorem eq_of_held_eq {xs ys : List Tile} (hx : Row high a p xs) (hy : Row high a p ys)
    (sx : Spaced xs) (sy : Spaced ys) (h : held xs = held ys) : xs = ys := by
  induction hx generalizing ys with
  | epilogue p =>
    cases hy with
    | epilogue => rfl
    | block _ _ h32 hy => have := hy.le; omega
  | @block a p tag ts hp h8 h32 hx ih =>
    have sx' : Spaced ts := fun t ht => sx t (List.mem_cons_of_mem _ ht)
    cases hy with
    | epilogue => have := hx.le; omega
    | @block _ _ tag' ts' hp' h8' h32' hy =>
      have sy' : Spaced ts' := fun t ht => sy t (List.mem_cons_of_mem _ ht)
      obtain ⟨size, prev, alloc⟩ := tag
      obtain ⟨size', prev', alloc'⟩ := tag'
      simp only at hp hp' h32 h32' hx hy
      subst hp hp'
      cases alloc <;> cases alloc'
      · -- both are free: what follows is allocated and in the same place
        rw [held_cons_free rfl, held_cons_free rfl] at h
        obtain ⟨n, rest, e⟩ := hx.held_of_prev_free sx'
        obtain ⟨n', rest', e'⟩ := hy.held_of_prev_free sy'
        rw [e, e'] at h
        have hsize : a + size = a + size' := (Entry.mk.inj (List.cons.inj h).1).1
        obtain rfl : size = size' := by omega
        rw [ih hy sx' sy' (by rw [e, e', h])]
      · rw [held_cons_free rfl, held_cons_alloc rfl] at h
        have := hx.le_of_mem_held (h ▸ List.mem_cons_self)
        simp only [Tile.entry] at this
        omega
      · rw [held_cons_free (t := ⟨a, ⟨size', _, false⟩⟩) rfl, held_cons_alloc rfl] at h
        have := hy.le_of_mem_held (h ▸ List.mem_cons_self)
        simp only [Tile.entry] at this
        omega
      · rw [held_cons_alloc rfl, held_cons_alloc rfl] at h
        obtain ⟨he, ht⟩ := List.cons.inj h
        obtain rfl : size = size' := (Entry.mk.inj he).2
        rw [ih hy sx' sy' ht]

end Row

end BoundaryTag
