/-
  BoundaryTag.Proofs.InPlace — when a block that is given a new size stays where it is.

  A block has room for its new size if it is large enough itself, or if it is so together with
  the free block behind it. Then it is cut, or takes that block in and is cut; either way the
  bytes up to the next allocated block are the block's own and, if that leaves any, one free
  block's. Else it moves, and what it leaves is merged like any block that is released.

  Proved: after any run, reallocation answers with the same address just when there is room in
  place; it then leaves the arena and all other blocks as they are; and the bytes of a block
  that moved are part of one free block between allocated ones (`Run.reallocates_in_place`).
-/

import BoundaryTag.Proofs.Carving
import BoundaryTag.Proofs.WellFormed

namespace BoundaryTag

/-- Where a block is, how large it is and whether it is allocated. -/
def Tile.shape (t : Tile) : Entry × Bool := (t.entry, t.tag.alloc)

/-- The bytes of a free block that these blocks start with. -/
def spare : List Tile → Nat
  | [] => 0
  | u :: _ => if u.tag.alloc then 0 else u.tag.size

/-- These blocks without a free one that they start with. -/
def beyond : List Tile → List Tile
  | [] => []
  | u :: us => if u.tag.alloc then u :: us else us

/-- The block `t` has room for `size` bytes, or has it together with the free one behind it. -/
def HasRoom (size : Nat) (t : Tile) (behind : List Tile) : Prop :=
  size ≤ t.tag.size ∨ ∃ u us, behind = u :: us ∧ u.tag.alloc = false ∧
    size ≤ t.tag.size + u.tag.size

/-- The `total` bytes from `bp` on: the first `k` of them allocated, and what is left,
    if any, one free block. -/
def cut (bp k total : Nat) : List (Entry × Bool) :=
  (⟨bp, k⟩, true) :: if k = total then [] else [(⟨bp + k, total - k⟩, false)]

/-- How much is allocated for `size` bytes of a block, which takes in what is behind it only if
    it has to. -/
def portion (size : Nat) (t : Tile) (behind : List Tile) : Nat :=
  allotted size (if size ≤ t.tag.size then t.tag.size else t.tag.size + spare behind)

/-- The blocks when `t`, between `L` and `R`, was given `size` bytes where it is. -/
def fitted (L : List Tile) (t : Tile) (R : List Tile) (size : Nat) : List (Entry × Bool) :=
  L.map Tile.shape ++
    (cut t.bp (portion size t R) (t.tag.size + spare R) ++ (beyond R).map Tile.shape)

/-- The bytes from `a` to `b` are part of one free block, and the blocks next to it are
    allocated. -/
def Returned (ts : List Tile) (a b : Nat) : Prop :=
  ∃ X g Y, ts = X ++ g :: Y ∧ g.tag.alloc = false ∧ g.bp ≤ a ∧ b ≤ g.stop ∧
    (∀ x ∈ X.getLast?, x.tag.alloc = true) ∧
    ∀ y ∈ Y.head?, y.tag.alloc = true

@[simp] theorem Tile.withPrev_shape (t : Tile) (p : Bool) : (t.withPrev p).shape = t.shape := rfl

theorem spare_concat {e : Tile} (he : e.tag.alloc = true) (ts : List Tile) :
    spare (ts ++ [e]) = spare ts := by
  cases ts with
  | nil => simp [spare, he]
  | cons u us => rfl

theorem beyond_concat {e : Tile} (he : e.tag.alloc = true) (ts : List Tile) :
    beyond (ts ++ [e]) = beyond ts ++ [e] := by
  cases ts with
  | nil => simp [beyond, he]
  | cons u us =>
    simp only [beyond, List.cons_append]
    split <;> rfl

theorem hasRoom_concat {e t : Tile} {size : Nat} (he : e.tag.alloc = true) (ts : List Tile) :
    HasRoom size t (ts ++ [e]) ↔ HasRoom size t ts := by
  cases ts with
  | nil => simp [HasRoom, he]
  | cons u us => simp [HasRoom]

/-- An allocated tile at the end is left alone. -/
theorem fitted_concat {e t : Tile} {size : Nat} (he : e.tag.alloc = true) (L R : List Tile) :
    fitted L t (R ++ [e]) size = fitted L t R size ++ [e.shape] := by
  simp only [fitted, portion, spare_concat he, beyond_concat he, List.map_append, List.map_cons,
    List.map_nil, List.append_assoc]

/-- No two free blocks lie side by side, so what is part of one is returned. -/
theorem returned_of_mem {ts : List Tile} {g : Tile} {a b : Nat}
    (hmerged : ts.IsChain fun t u => t.tag.alloc = true ∨ u.tag.alloc = true) (hg : g ∈ ts)
    (hfree : g.tag.alloc = false) (ha : g.bp ≤ a) (hb : b ≤ g.stop) : Returned ts a b := by
  obtain ⟨X, Y, rfl⟩ := List.append_of_mem hg
  obtain ⟨-, hright, hleft⟩ := List.isChain_append.mp hmerged
  refine ⟨X, g, Y, rfl, hfree, ha, hb, ?_, ?_⟩
  · intro x hx
    exact (hleft x hx g rfl).resolve_right (by simp [hfree])
  · intro y hy
    cases Y with
    | nil => cases hy
    | cons z Y =>
      obtain rfl : z = y := Option.some.inj hy
      exact (List.isChain_cons_cons.mp hright).1.resolve_left (by simp [hfree])

variable {r : Region} {high a first size : Nat} {p : Bool} {s : Store} {L R row' : List Tile}
  {idx idx' : Index} {t u v : Tile}

/-! ## Cutting a block -/

/-- What is left of a block is none of the tiles around it. -/
theorem Row.back_not_mem (h : Row high a p (L ++ t :: u :: R)) (h0 : 0 < size)
    (hlt : size < t.tag.size) (q : Bool) :
    t.back size ∉ L ++ [t.front size] ∧ t.back size ∉ u.withPrev q :: R := by
  constructor
  · intro hin
    rcases List.mem_append.mp hin with hin | hin
    · obtain ⟨hstop, h32⟩ := h.before hin
      simp only [Tile.back, Tile.stop] at hstop h32
      omega
    · have hbp : t.bp + size = t.bp := congrArg Tile.bp (List.mem_singleton.mp hin)
      omega
  · intro hin
    have hbp : ∃ x ∈ u :: R, x.bp = t.bp + size := by
      rcases List.mem_cons.mp hin with heq | hin
      · exact ⟨u, List.mem_cons_self, (congrArg Tile.bp heq).symm⟩
      · exact ⟨t.back size, List.mem_cons_of_mem _ hin, rfl⟩
    obtain ⟨x, hx, hbp⟩ := hbp
    have hstop := h.behind hx
    simp only [Tile.stop] at hstop
    omega

/-- The first bytes of a block are allocated, and the others make up one free block with
    what is free behind them. -/
theorem Carved.shape (hrow : Row high a p (L ++ t :: u :: R)) (hs : Spaced R) (h32 : 32 ≤ size)
    (hle : size ≤ t.tag.size) (hc : Carved L t u R size idx row' idx') :
    row'.map Tile.shape = L.map Tile.shape ++
      (cut t.bp (allotted size t.tag.size) (t.tag.size + spare (u :: R)) ++
      (beyond (u :: R)).map Tile.shape) := by
  have hubp : t.stop = u.bp := hrow.spans_one.1.2.2.2.2.1
  have hfree : u.tag.alloc = false → 32 ≤ u.tag.size ∧ ∃ v R', R = v :: R' ∧ v.tag.alloc = true ∧
      u.stop = v.bp := by
    intro hu
    rw [List.append_cons] at hrow
    obtain ⟨v, R', rfl, hv⟩ := hrow.succ_free hu hs
    exact ⟨hrow.size_of_free (by simp) hu, v, R', rfl, hv, hrow.spans_one.1.2.2.2.2.1⟩
  cases hc with
  | whole hsmall =>
    rw [allotted, if_neg (by omega)]
    cases hu : u.tag.alloc with
    | true => simp [spare, beyond, cut, hu, Tile.shape, Tile.front, Tile.entry]
    | false =>
      obtain ⟨h32u, -⟩ := hfree hu
      have hne : u.tag.size ≠ 0 := by omega
      have hbp : u.bp = t.bp + t.tag.size := hubp.symm
      simp [spare, beyond, cut, hu, hne, Tile.shape, Tile.front, Tile.entry, hbp]
  | part hlarge hmerged =>
    rw [allotted, if_pos hlarge]
    obtain ⟨hL, hR⟩ := hrow.back_not_mem (by omega) (show size < t.tag.size by omega) false
    simp only [Tile.stop] at hubp
    rw [List.append_cons] at hmerged
    cases hu : u.tag.alloc with
    | true =>
      obtain ⟨-, rfl, -⟩ := hmerged.alone hL hR rfl hu
      have hne : size ≠ t.tag.size := by omega
      have hrest : u.bp - (t.bp + size) = t.tag.size - size := by omega
      simp [spare, beyond, cut, hu, hne, Tile.shape, Tile.front, Tile.back, Tile.entry, gap, hrest]
    | false =>
      obtain ⟨-, v, R', rfl, hv, hvbp⟩ := hfree hu
      obtain ⟨-, rfl, -⟩ := hmerged.above hL hR rfl hu hv
      simp only [Tile.stop] at hvbp
      have hne : size ≠ t.tag.size + u.tag.size := by omega
      have hrest : v.bp - (t.bp + size) = t.tag.size + u.tag.size - size := by omega
      simp [spare, beyond, cut, hu, hne, Tile.shape, Tile.front, Tile.back, Tile.entry, gap, hrest]

/-- A block and the free one behind it, as one. -/
theorem Row.joined (h : Row high a p (L ++ t :: u :: v :: R)) (hu : u.tag.alloc = false) :
    Row high a p (L ++ t.joined u :: v :: R) := by
  have hspan : Spans t.bp t.tag.prevAlloc [t, u] v.bp v.tag.prevAlloc := h.spans_mid (M := [u])
  obtain ⟨-, -, ht8, ht32, hubp, -, hu8, -, hvbp, hvp⟩ := id hspan
  have hstop : (t.joined u).stop = v.bp := by
    simp only [Tile.joined, Tile.stop] at hubp hvbp ⊢
    omega
  refine Row.cover (M := [t, u]) (by simpa using h) ?_ ?_ ?_
  · rw [hstop]
    show Spans t.bp t.tag.prevAlloc [t, u] v.bp false
    rw [← hu, hvp]
    exact hspan
  · simp only [Tile.joined]
    omega
  · simp only [Tile.joined]
    omega

namespace Heap

variable {A : Type} [Arena A] [LawfulArena A] {h h' : Heap A} {row : List Tile} {e : Entry}
  {request n : Nat}

/-! ## Room in place -/

theorem fit_in_place (hl : Laid h (L ++ t :: u :: R) idx) (ha : t.tag.alloc = true)
    (h8 : size % 8 = 0) (h32 : 32 ≤ size) (hroom : HasRoom size t (u :: R)) (request : Nat) :
    ∃ s' row' idx', fit h.bounds t.bp size t.tag.size request h = .ok t.bp { h with store := s' } ∧
      Laid { h with store := s' } row' idx' ∧
      row'.map Tile.shape = fitted L t (u :: R) size := by
  have hR : Spaced R := fun x hx => hl.sound.spaced x (by simp [hx])
  by_cases hle : size ≤ t.tag.size
  · obtain ⟨s', row', idx', hrun, hcarved, hsound, hkept⟩ := hl.sound.shrink_spec ha h8 h32 hle
    refine ⟨s', row', idx', ?_,
      hl.next ⟨rfl, rfl, rfl, Nat.le_refl _⟩ hl.sane hsound fun x hx => hkept x (.inl hx), ?_⟩
    · exact fit_cut hle hrun request
    · rw [fitted, portion, if_pos hle]
      exact hcarved.shape hl.tiled.row hR h32 hle
  · obtain ⟨u', R', heq, hu, hsum⟩ := hroom.resolve_left hle
    obtain ⟨rfl, rfl⟩ := List.cons.inj heq
    rcases hl.sound.growInPlace_spec ha h8 h32 with
      ⟨-, hno⟩ | ⟨v, R, s', row', idx', rfl, -, -, hrun, hcarved, hsound, hkept⟩
    · rw [hu] at hno
      exact absurd hsum (Nat.not_le.mpr (hno.resolve_left Bool.false_ne_true))
    refine ⟨s', row', idx', ?_, hl.next ⟨rfl, rfl, rfl, Nat.le_refl _⟩ hl.sane hsound fun x hx =>
      hkept x (.inl hx) (.inl hx), ?_⟩
    · exact fit_grown hle hrun request
    · have hrow := hl.tiled.row
      rw [List.append_cons] at hrow
      obtain ⟨v', R', heq, hv⟩ := hrow.succ_free hu hR
      obtain ⟨rfl, rfl⟩ := List.cons.inj heq
      have hshape := hcarved.shape (hl.tiled.row.joined hu)
          (fun x hx => hR x (List.mem_cons_of_mem _ hx)) h32 hsum
      have hspare : spare (v :: R) = 0 := if_pos hv
      have hbeyond : beyond (v :: R) = v :: R := if_pos hv
      have hspare' : spare (u :: v :: R) = u.tag.size := by simp [spare, hu]
      have hbeyond' : beyond (u :: v :: R) = v :: R := by simp [beyond, hu]
      rw [hspare, hbeyond] at hshape
      rw [fitted, portion, if_neg hle, hspare', hbeyond']
      exact hshape

/-! ## Room elsewhere -/

theorem fit_elsewhere (hl : Laid h (L ++ t :: u :: R) idx) (ha : t.tag.alloc = true)
    (h8 : size % 8 = 0) (h32 : 32 ≤ size) (hroom : ¬ HasRoom size t (u :: R)) (request : Nat) :
    fit h.bounds t.bp size t.tag.size request h = move t.bp t.tag.size request h := by
  have hle : ¬ size ≤ t.tag.size := fun hle => hroom (.inl hle)
  rcases hl.sound.growInPlace_spec ha h8 h32 with
    ⟨hrun, -⟩ | ⟨v, R', s', row', idx', -, hu, hsum, -⟩
  · exact fit_moved hle hrun request
  · exact absurd (.inr ⟨u, R, rfl, hu, hsum⟩) hroom

/-- What a freed block had is part of a free block. -/
theorem free_covered (hl : Laid h row idx) (he : e ∈ live row) :
    ∃ s' row' idx' g, Store.free h.bounds e.bp h.store = .ok () s' ∧
      Laid { h with store := s' } row' idx' ∧ g ∈ row' ∧ g.tag.alloc = false ∧
      g.bp ≤ e.bp ∧ e.bp + e.size ≤ g.stop := by
  obtain ⟨t, ht, ha, rfl, h32⟩ := hl.tiled.mem_live.mp he
  obtain ⟨L, u, R, rfl⟩ := hl.tiled.row.split ht h32
  obtain ⟨s', b, row', idx', hrun, hl', -, hmerged⟩ := free_merged hl ha
  obtain ⟨g, hg, -, hfree, hbp, hstop⟩ := hmerged.mem
  exact ⟨s', row', idx', g, hrun, hl', hg, hfree, hbp, hstop⟩

theorem move_covered {p : Nat} (hl : Laid h row idx) (he : e ∈ live row)
    (hrun : move e.bp e.size request h = .ok p h') :
    p ≠ e.bp ∧ ∃ row' idx' g, Laid h' row' idx' ∧ g ∈ row' ∧ g.tag.alloc = false ∧ g.bp ≤ e.bp ∧
    e.bp + e.size ≤ g.stop := by
  rcases move_cases hl he request with
    ⟨err, g, hrefused, -⟩ | ⟨e', h₁, m, s', row₁, idx₁, -, -, ha, -, hl₂, ha₂, hfree, hmove⟩
  · cases hrefused.symm.trans hrun
  cases hmove.symm.trans hrun
  obtain ⟨s'', row', idx', g, hfree', hl', hg⟩ :=
    free_covered hl₂ ((ha₂.gained.mem e).mpr (.inr he))
  cases hfree.symm.trans hfree'
  exact ⟨(ha.gained.fresh e he).symm, row', idx', g, hl', hg⟩

/-! ## The request -/

theorem live_of_behind (hl : Laid h (L ++ t :: u :: R) idx) (ha : t.tag.alloc = true) :
    t.entry ∈ live (L ++ t :: u :: R) := by
  obtain ⟨⟨-, -, -, h32, -⟩, -⟩ := hl.tiled.row.spans_one
  exact hl.tiled.mem_live.mpr ⟨t, by simp, ha, rfl, h32⟩

theorem tryReallocate_in_place (hl : Laid h (L ++ t :: u :: R) idx) (hc : h.Checkable)
    (ha : t.tag.alloc = true) (hn : n ≠ 0) (hsize : blockSize n = .ok size)
    (hroom : HasRoom size t (u :: R)) :
    ∃ h' row' idx', tryReallocate t.bp n h = .ok (some t.bp) h' ∧ h'.arena = h.arena ∧
      Laid h' row' idx' ∧
      row'.map Tile.shape = fitted L t (u :: R) size := by
  obtain ⟨h8, h32, -⟩ := blockSize_ok hsize
  obtain ⟨s', row', idx', hfit, hl', hshape⟩ := fit_in_place hl ha h8 h32 hroom n
  have hsame := same_told { h with store := s' } (.reallocated t.bp t.bp n (t.bp == t.bp))
  have hrun := tryReallocate_answers hl (live_of_behind hl ha) hn hsize hfit hl'
  exact ⟨_, row', idx', hrun.run (hsame.checkable hc), told_arena _ _, hl'.same hsame, hshape⟩

theorem tryReallocate_elsewhere {b : Option Nat} (hl : Laid h (L ++ t :: u :: R) idx)
    (ha : t.tag.alloc = true) (hn : n ≠ 0) (hsize : blockSize n = .ok size)
    (hroom : ¬ HasRoom size t (u :: R)) (hrun : tryReallocate t.bp n h = .ok b h') :
    ∃ p' row' idx' g, b = some p' ∧ p' ≠ t.bp ∧ Laid h' row' idx' ∧ g ∈ row' ∧ g.tag.alloc = false ∧
      g.bp ≤ t.bp ∧ t.stop ≤ g.stop := by
  obtain ⟨h8, h32, -⟩ := blockSize_ok hsize
  have he := live_of_behind hl ha
  obtain ⟨size', new, h₁, hsize', hfit, hb, rfl⟩ := tryReallocate_inv hl he hn hrun
  obtain rfl : size = size' := Except.ok.inj (hsize.symm.trans hsize')
  obtain ⟨hne, row', idx', g, hl', hg⟩ :=
    move_covered hl he ((fit_elsewhere hl ha h8 h32 hroom n).symm.trans hfit)
  exact ⟨new, row', idx', g, hb, hne, hl'.same (same_told _ _), hg⟩

/-! ## Blocks and epilogue -/

theorem tryReallocate_stays (hl : Laid h (L ++ t :: (R ++ [⟨h.bounds.high, ⟨0, p, true⟩⟩])) idx)
    (hc : h.Checkable) (ha : t.tag.alloc = true) (hn : n ≠ 0) (hsize : blockSize n = .ok size)
    (hroom : HasRoom size t R) :
    ∃ h' ts' q' idx', tryReallocate t.bp n h = .ok (some t.bp) h' ∧ h'.arena = h.arena ∧
      h'.WellFormed ts' q' idx' ∧
      ts'.map Tile.shape = fitted L t R size := by
  rw [← hasRoom_concat (e := ⟨h.bounds.high, ⟨0, p, true⟩⟩) rfl R] at hroom
  have hfitted : fitted L t (R ++ [⟨h.bounds.high, ⟨0, p, true⟩⟩]) size = fitted L t R size ++
      [_] := fitted_concat rfl L R
  obtain ⟨u, U, hU⟩ := List.exists_cons_of_ne_nil
      (List.append_ne_nil_of_right_ne_nil R (List.cons_ne_nil ⟨h.bounds.high, ⟨0, p, true⟩⟩ []))
  rw [hU] at hl hroom hfitted
  obtain ⟨h', row', idx', hrun, harena, hl', hshape⟩ :=
    tryReallocate_in_place hl hc ha hn hsize hroom
  obtain ⟨ts', q', rfl, hwell'⟩ := hl'.readOff
  rw [hfitted, List.map_append] at hshape
  exact ⟨h', ts', q', idx', hrun, harena, hwell', (List.append_inj' hshape rfl).1⟩

theorem tryReallocate_leaves {b : Option Nat}
    (hl : Laid h (L ++ t :: (R ++ [⟨h.bounds.high, ⟨0, p, true⟩⟩])) idx) (ha : t.tag.alloc = true)
    (hn : n ≠ 0) (hsize : blockSize n = .ok size) (hroom : ¬ HasRoom size t R)
    (hrun : tryReallocate t.bp n h = .ok b h') :
    ∃ p' ts' q' idx', b = some p' ∧ p' ≠ t.bp ∧ h'.WellFormed ts' q' idx' ∧
      Returned ts' t.bp t.stop := by
  rw [← hasRoom_concat (e := ⟨h.bounds.high, ⟨0, p, true⟩⟩) rfl R] at hroom
  obtain ⟨u, U, hU⟩ := List.exists_cons_of_ne_nil
      (List.append_ne_nil_of_right_ne_nil R (List.cons_ne_nil ⟨h.bounds.high, ⟨0, p, true⟩⟩ []))
  rw [hU] at hl hroom
  obtain ⟨p', row', idx', g, hb, hne, hl', hg, hfree, hbp, hstop⟩ :=
    tryReallocate_elsewhere hl ha hn hsize hroom hrun
  obtain ⟨ts', q', rfl, hwell'⟩ := hl'.readOff
  have hg : g ∈ ts' := (List.mem_append.mp hg).resolve_right fun hlast => by
    simp [List.mem_singleton.mp hlast] at hfree
  exact ⟨p', ts', q', idx', hb, hne, hwell', returned_of_mem hwell'.merged hg hfree hbp hstop⟩

end Heap

/-! ## Runs -/

/-- After any run, a live block that is given a new size keeps its address just when it has room
    for it, alone or together with the free block behind it. Then the arena is as it was, and so
    are all other blocks; what is left of the block and of a free one behind it is one free
    block. If it has no room and there is an answer, it is another address, and what the block
    had is part of a free block between allocated ones. -/
theorem Run.reallocates_in_place {A : Type} [Arena A] [LawfulArena A] {arena : A} {memory : Memory}
    {config : Config} {past : List (Call × Answer)} {w : World A} {n : Nat}
    (hs : LawfulArena.Sane arena) (hr : Run arena memory config past w) (hp : a ∈ w.holds)
    (hn : 1 ≤ n) (hsize : blockSize n = .ok size) :
    ∃ L t R q idx, w.heap.WellFormed (L ++ t :: R) q idx ∧ t.bp = a ∧ t.tag.alloc = true ∧
      ((∃ h', Heap.tryReallocate a n w.heap = .ok (some a) h') ↔ HasRoom size t R) ∧
      (HasRoom size t R → ∃ h' ts' q' idx', Heap.tryReallocate a n w.heap = .ok (some a) h' ∧
        h'.arena = w.heap.arena ∧
        h'.WellFormed ts' q' idx' ∧ ts'.map Tile.shape = fitted L t R size) ∧
      (¬ HasRoom size t R → ∀ b h', Heap.tryReallocate a n w.heap = .ok b h' →
        ∃ p' ts' q' idx', b = some p' ∧ p' ≠ a ∧ h'.WellFormed ts' q' idx' ∧
          Returned ts' a t.stop) := by
  obtain ⟨row, idx, hw⟩ := hr.sound hs
  obtain ⟨ts, q, rfl, hwell⟩ := hw.laid.readOff
  obtain ⟨t, ht, ha, rfl⟩ := hwell.tiles.live_iff.mp ((hw.holds a).mp hp)
  obtain ⟨L, R, rfl⟩ := List.append_of_mem ht
  have hn : n ≠ 0 := Nat.one_le_iff_ne_zero.mp hn
  have hl := hw.laid
  rw [List.append_assoc, List.cons_append] at hl
  refine ⟨L, t, R, q, idx, hwell, rfl, ha, ⟨?_, ?_⟩, ?_, ?_⟩
  · intro hrun
    obtain ⟨h', hrun⟩ := hrun
    by_contra hroom
    obtain ⟨p', _, _, _, hb, hne, -⟩ := Heap.tryReallocate_leaves hl ha hn hsize hroom hrun
    exact hne (Option.some.inj hb).symm
  · intro hroom
    obtain ⟨h', _, _, _, hrun, -⟩ := Heap.tryReallocate_stays hl hw.checkable ha hn hsize hroom
    exact ⟨h', hrun⟩
  · intro hroom
    exact Heap.tryReallocate_stays hl hw.checkable ha hn hsize hroom
  · intro hroom b h' hrun
    exact Heap.tryReallocate_leaves hl ha hn hsize hroom hrun

/-- A block of 32 bytes takes in the free one behind it. -/
theorem Run.reallocates_in_place_page : ∃ w L t R h' ts' q' idx',
    Run page .blank {} [(.allocate 24, .ok (some 4128)), (.allocate 100, .ok (some 4160)),
      (.release 4160, .ok none)] w ∧
      t.bp = 4128 ∧ blockSize 56 = .ok 64 ∧ HasRoom 64 t R ∧
      Heap.tryReallocate 4128 56 w.heap = .ok (some 4128) h' ∧
      h'.WellFormed ts' q' idx' ∧ ts'.map Tile.shape = fitted L t R 64 := by
  obtain ⟨w, hr, hholds, hlook⟩ :=
    Run.of_trial page .blank {} [.allocate 24, .allocate 100, .release 4160]
    [.ok (some 4128), .ok (some 4160), .ok none]
    (fun h => match Heap.tryReallocate 4128 56 h with
      | .ok a _ => a
      | .error _ _ => none) (some 4128) (by decide +kernel) (by decide +kernel)
  have hheld : 4128 ∈ w.holds := by
    rw [hholds]
    decide +kernel
  obtain ⟨L, t, R, -, -, -, hbp, -, hiff, hstay, -⟩ :=
    Run.reallocates_in_place (A := FixedArena) trivial hr hheld (by decide)
    (show blockSize 56 = .ok 64 from rfl)
  have hroom : HasRoom 64 t R := by
    apply hiff.mp
    cases hrun : Heap.tryReallocate 4128 56 w.heap with
    | ok b h' =>
      simp only [hrun] at hlook
      exact ⟨h', by rw [hlook]⟩
    | error =>
      simp only [hrun] at hlook
      cases hlook
  obtain ⟨h', ts', q', idx', hrun, -, hwell, hshape⟩ := hstay hroom
  exact ⟨w, L, t, R, h', ts', q', idx', hr, hbp, rfl, hroom, hrun, hwell, hshape⟩

end BoundaryTag
