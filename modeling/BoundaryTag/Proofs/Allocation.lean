/-
  BoundaryTag.Proofs.Allocation — how a heap grows, and how it allocates a block.

  When the arena gives more bytes, the epilogue's word becomes the header of a free block over
  them and the new last word becomes the epilogue; then that block is merged and filed like any
  other (`extend_spec`). `grow` and `allocateBlock` either have an answer, and then only what
  they say has changed, or they are refused and nothing has (`grow_spec`, `allocateBlock_spec`).
-/

import BoundaryTag.Proofs.Laid

namespace BoundaryTag

variable {r : Region} {first : Nat} {s : Store} {row L R : List Tile} {idx : Index} {t v : Tile}

/-! ## More bytes for a store -/

/-- A row ends with its epilogue. -/
theorem Row.snoc {high a : Nat} {p : Bool} (h : Row high a p row) :
    ∃ ts q, row = ts ++ [⟨high, ⟨0, q, true⟩⟩] ∧ Spans a p ts high q := by
  induction h with
  | epilogue q => exact ⟨[], q, rfl, rfl, rfl⟩
  | @block a p tag ts hp h8 h32 _ ih =>
    obtain ⟨us, q, rfl, hspan⟩ := ih
    exact ⟨⟨a, tag⟩ :: us, q, rfl, rfl, hp, h8, h32, hspan⟩

theorem live_epilogue (ts : List Tile) (high : Nat) (q : Bool) :
    live (ts ++ [⟨high, ⟨0, q, true⟩⟩]) = live ts := by
  rw [live, held_append, List.filter_append, held_cons_alloc rfl]
  simp [live, Tile.entry]

/-- The last tile gives way to two others, whose tags are written one after the other. -/
theorem Tiled.lengthen {r' : Region} {m m₁ m₂ : Memory} {E T U : Tile}
    (h : Tiled r m first (L ++ [E])) (hrow : Row r'.high first true (L ++ T :: U :: []))
    (hlow : r'.low = r.low) (hlt : r'.high < wordLimit) (hT : r'.Stamped T m m₁)
    (hU : r'.Stamped U m₁ m₂) : Tiled r' m₂ first (L ++ T :: U :: []) := by
  have hfirst := h.low_le
  have fits : ∀ t ∈ L ++ T :: U :: [], t.Fits := fun t ht => hrow.fits (by omega) hlt ht
  refine ⟨hrow, ?_, hlow ▸ hfirst, h.aligned, hlt⟩
  intro t ht
  have hapart : ∀ {u}, u ∈ L ++ T :: U :: [] → t ≠ u → ∀ y, t.Marks y → ¬ u.Marks y :=
    fun hu hne y hy => (hrow.marks_apart (by omega) hlt ht hu hne hy).1
  by_cases htU : t = U
  · exact htU ▸ hU.written
  · refine Tile.Written.congr ?_ (fits t ht) fun y hy => hU.plain y (hapart (by simp) htU y hy)
    by_cases htT : t = T
    · exact htT ▸ hT.written
    · have hin : t ∈ L := by simpa [htU, htT] using ht
      exact (h.written t (List.mem_append_left _ hin)).congr (fits t ht) fun y hy =>
        hT.plain y (hapart (by simp) htT y hy)

/-- The region grows: the epilogue gives way to a free block over the new bytes, which is not
    filed yet. -/
theorem Sound.lengthen {r' : Region} {n : Nat} {q : Bool}
    (h : Sound r first s (L ++ [⟨r.high, ⟨0, q, true⟩⟩]) idx) (hlow : r'.low = r.low)
    (hhigh : r'.high = r.high + n) (h8 : n % 8 = 0) (h32 : 32 ≤ n) (hlt : r'.high < wordLimit) :
    ∃ m₁ m₂, r'.tag r.high s.memory = .ok ⟨0, q, true⟩ ∧
      r'.writeFree r.high n q s.memory = .ok () m₁ ∧
      r'.above r.high m₁ = .ok r'.high ∧ r'.writeAllocated r'.high 0 false m₁ = .ok () m₂ ∧
      Filed r' first ⟨m₂, s.buckets⟩
        (L ++ ⟨r.high, ⟨n, q, false⟩⟩ :: ⟨r'.high, ⟨0, false, true⟩⟩ :: []) idx
        (vacant L ++ vacant (⟨r'.high, ⟨0, false, true⟩⟩ :: [])) ∧
      ∀ y, Tiled.Plain (L ++ ⟨r.high, ⟨n, q, false⟩⟩ :: ⟨r'.high, ⟨0, false, true⟩⟩ :: []) y →
        m₂.byte y = s.memory.byte y := by
  have hfirst := h.tiled.low_le
  obtain ⟨c, x, hL, hE⟩ := Row.append_cons.mp h.tiled.row
  obtain ⟨rfl, rfl, -⟩ := hE.head
  have hle : first ≤ r.high := hL.le
  have hrow : Row r'.high first true
      (L ++ ⟨r.high, ⟨n, q, false⟩⟩ :: ⟨r'.high, ⟨0, false, true⟩⟩ :: []) :=
    Row.append_cons.mpr ⟨_, _, hL, .block rfl h8 h32 (by rw [hhigh]; exact .epilogue false)⟩
  generalize heT : (⟨r.high, ⟨n, q, false⟩⟩ : Tile) = T at *
  generalize heU : (⟨r'.high, ⟨0, false, true⟩⟩ : Tile) = U at *
  obtain ⟨hTbp, hTtag⟩ : T.bp = r.high ∧ T.tag = ⟨n, q, false⟩ := heT ▸ ⟨rfl, rfl⟩
  obtain ⟨hUbp, hUtag⟩ : U.bp = r'.high ∧ U.tag = ⟨0, false, true⟩ := heU ▸ ⟨rfl, rfl⟩
  have hTstop : T.stop = r'.high := by rw [Tile.stop, hTbp, hTtag, hhigh]
  have mT : T ∈ L ++ T :: U :: [] := by simp
  have mU : U ∈ L ++ T :: U :: [] := by simp
  have fits : ∀ t ∈ L ++ T :: U :: [], t.Fits := fun t ht => hrow.fits (by omega) hlt ht
  -- the old epilogue, as the new region shows it
  have htag : r'.tag r.high s.memory = .ok ⟨0, q, true⟩ := by
    have hw := (h.tiled.written _ (List.mem_append_right L List.mem_cons_self)).header
    simp only at hw
    rw [Region.tag_eq (by omega) (by omega), hw, Tag.decode_encode rfl]
  obtain ⟨m₁, hwriteT, hT⟩ := Region.writeFree_spec (r := r') (t := T) (by rw [hTtag]) (fits T mT)
      (by omega) (by omega) s.memory
  rw [hTbp, hTtag] at hwriteT
  have habove : r'.above r.high m₁ = .ok r'.high := by rw [← hTbp, ← hTstop, hT.above]
  obtain ⟨m₂, hwriteU, hU⟩ := Region.writeAllocated_spec (r := r') (t := U) (by rw [hUtag])
      (fits U mU) (by omega) (by omega) m₁
  rw [hUbp, hUtag] at hwriteU
  have hplain : ∀ y, Tiled.Plain (L ++ T :: U :: []) y → m₂.byte y = s.memory.byte y :=
    fun y hy => (hU.plain y (hy U mU)).trans (hT.plain y (hy T mT))
  have htiled : Tiled r' m₂ first (L ++ T :: U :: []) := h.tiled.lengthen hrow hlow hlt hT hU
  refine ⟨m₁, m₂, htag, hwriteT, habove, hwriteU, ?_, hplain⟩
  have hvac : vacant (U :: []) = [] := vacant_cons_alloc (by rw [hUtag]) []
  have hc := h.filed.covers
  rw [vacant_append, vacant_cons_alloc rfl, vacant_nil, List.append_nil] at hc
  rw [hvac, List.append_nil]
  refine .retile h.filed.files hc htiled hlow ?_ hplain
  rw [vacant_append]
  exact List.sublist_append_left _ _

/-- The region grows, and the free block over the new bytes is merged and filed. -/
theorem Sound.extend_spec {r' : Region} {n : Nat} {q : Bool}
    (h : Sound r first s (L ++ [⟨r.high, ⟨0, q, true⟩⟩]) idx) (hlow : r'.low = r.low)
    (hhigh : r'.high = r.high + n) (h8 : n % 8 = 0) (h32 : 32 ≤ n) (hlt : r'.high < wordLimit) :
    ∃ m₁ m₂ s' b row' idx', r'.tag r.high s.memory = .ok ⟨0, q, true⟩ ∧
      r'.writeFree r.high n q s.memory = .ok () m₁ ∧
      r'.above r.high m₁ = .ok r'.high ∧ r'.writeAllocated r'.high 0 false m₁ = .ok () m₂ ∧
      Store.coalesce r' r.high ⟨m₂, s.buckets⟩ = .ok b s' ∧
      Merged ⟨r.high, ⟨n, q, false⟩⟩
        (L ++ ⟨r.high, ⟨n, q, false⟩⟩ :: ⟨r'.high, ⟨0, false, true⟩⟩ :: []) idx b row' idx' ∧
      Sound r' first s' row' idx' ∧ Kept first (held row') s.memory s'.memory := by
  obtain ⟨m₁, m₂, htag, hwriteT, habove, hwriteU, hfiled, hplain⟩ :=
    h.lengthen hlow hhigh h8 h32 hlt
  obtain ⟨s', b, row', idx', hrun, hmerged, hsound, hkept⟩ :=
    hfiled.coalesce_spec rfl h.spaced_left fun _ hx => absurd hx List.not_mem_nil
  refine ⟨m₁, m₂, s', b, row', idx', htag, hwriteT, habove, hwriteU, hrun, hmerged, hsound, ?_⟩
  intro x hx
  rw [hkept x hx]
  exact hplain x fun t ht => Guarded.not_marks (hmerged.held_eq ▸ hx) hfiled.tiled ht

/-! ## More bytes for a heap -/

namespace Heap

variable {A : Type} [Arena A] [LawfulArena A] {h h' : Heap A} {row' : List Tile} {idx' : Index}
  {request : Nat} {e : Entry}

omit [Arena A] [LawfulArena A] in
theorem told_arena (h : Heap A) (e : Event) : (h.told e).arena = h.arena := by
  unfold told
  split <;> rfl

omit [LawfulArena A] in
theorem claimOrTell_apply (bytes : Nat) (h : Heap A) :
    claimOrTell bytes h = match Arena.extend bytes h.arena with
    | .ok start a => .ok start { h with arena := a }
    | .error e a =>
      .error (.refused (.arena e)) (told { h with arena := a } (.cannotGrow bytes)) := by
  simp only [claimOrTell, tryCatch, tryCatchThe, MonadExceptOf.tryCatch, EStateM.tryCatch, claim]
  cases Arena.extend bytes h.arena with
  | ok => rfl
  | error =>
    simp only [HeapM.bind_apply, EStateM.Backtrackable.restore, EStateM.dummyRestore, log_told,
      HeapM.throw_apply]

/-- The arena gives the bytes above the old high end, or the request is refused and nothing else
    changes. -/
theorem claimOrTell_cases (hs : LawfulArena.Sane h.arena) (bytes : Nat) :
    (∃ a, claimOrTell bytes h = .ok h.bounds.high { h with arena := a } ∧
      Arena.low a = h.bounds.low ∧
      Arena.high a = h.bounds.high + bytes ∧ Arena.high a < wordLimit ∧ LawfulArena.Sane a) ∨
    ∃ e h', claimOrTell bytes h = .error (.refused e) h' ∧ Same h h' := by
  rcases hx : Arena.extend bytes h.arena with ⟨start, a⟩ | ⟨e, a⟩
  · obtain ⟨rfl, h1, h2, h3, h4⟩ := LawfulArena.extend_ok hs hx
    exact .inl ⟨a, by rw [claimOrTell_apply, hx]; rfl, h1, h2, h3, h4⟩
  · obtain ⟨h1, h2, h3⟩ := LawfulArena.extend_error hs hx
    have hsame : Same h { h with arena := a } :=
      ⟨rfl, rfl, rfl, by simp only [bounds, h1, h2], fun _ => h3⟩
    exact .inr ⟨.arena e, _, by rw [claimOrTell_apply, hx],
      hsame.trans (same_told _ (.cannotGrow bytes))⟩

/-- When the arena gives the bytes, growing answers with a free block over them and
    what was free below them. -/
theorem grow_met (hl : Laid h row idx) {words start : Nat} {a : A} (hw : words + 1 < wordLimit)
    (h4 : 4 ≤ words) (hfits : (words + words % 2) * 8 < wordLimit)
    (hx : Arena.extend ((words + words % 2) * 8) h.arena = .ok start a) :
    ∃ b h' L q row' idx', grow words h = .ok b h' ∧ h'.arena = a ∧ Laid h' row' idx' ∧ Later h h' ∧
      h'.bounds.high = h.bounds.high + (words + words % 2) * 8 ∧
      row = L ++ [⟨h.bounds.high, ⟨0, q, true⟩⟩] ∧
      Merged ⟨h.bounds.high, ⟨(words + words % 2) * 8, q, false⟩⟩
        (L ++ ⟨h.bounds.high, ⟨(words + words % 2) * 8, q, false⟩⟩ ::
        ⟨h'.bounds.high, ⟨0, false, true⟩⟩ :: []) idx b row' idx' ∧
      Kept h.firstBlock (held row') h.store.memory h'.store.memory := by
  have hadd : checkedAdd words (words % 2) = .ok (words + words % 2) := checkedAdd_ok (by omega)
  obtain ⟨rfl, hlow, hhigh, hlt, hsane⟩ := LawfulArena.extend_ok hl.sane hx
  have hclaim : claimOrTell ((words + words % 2) * wordSize) h = .ok h.bounds.high
      { h with arena := a } := by
    rw [claimOrTell_apply, hx]
    rfl
  obtain ⟨L, q, rfl, -⟩ := hl.tiled.row.snoc
  obtain ⟨r', hr'⟩ : ∃ r' : Region, r' = ⟨Arena.low a, Arena.high a⟩ := ⟨_, rfl⟩
  have hregion : region { h with arena := a } = .ok r' { h with arena := a } := by
    have h1 : h.firstBlock ≤ Arena.high h.arena := hl.tiled.row.le
    have h2 : Arena.low h.arena + 32 ≤ h.firstBlock := hl.tiled.low_le
    rw [hr']
    exact region_eq (by simp only; omega) (by simp only [hlow]; exact hl.low_aligned)
  have hlow' : r'.low = h.bounds.low := by rw [hr', hlow]; rfl
  have hhigh' : r'.high = h.bounds.high + (words + words % 2) * 8 := by rw [hr', hhigh]; rfl
  obtain ⟨m₁, m₂, s', b, row', idx', htag, hwrite₁, habove, hwrite₂, hrun, hmerged,
      hsound, hkept⟩ :=
    hl.sound.extend_spec hlow' hhigh' (by omega) (by omega) (by rw [hr']; exact hlt)
  obtain ⟨h₂, hh₂⟩ :
    ∃ h₂ : Heap A, h₂ = told { h with arena := a, store := { h.store with memory := m₂ } }
      (.extended ((words + words % 2) * 8) r'.high) := ⟨_, rfl⟩
  have hsame : Same { h with arena := a, store := { h.store with memory := m₂ } } h₂ :=
    hh₂ ▸ same_told _ _
  have hstore : h₂.store = ⟨m₂, h.store.buckets⟩ := hsame.store
  have hbounds : h₂.bounds = r' := hsame.bounds.trans hr'.symm
  have hlater : Later h { h₂ with store := s' } := by
    refine ⟨hsame.prologue, hsame.config, ?_, ?_⟩
    · show h₂.bounds.low = _
      rw [hbounds, hlow']
    · show _ ≤ h₂.bounds.high
      rw [hbounds, hhigh']
      exact Nat.le_add_right _ _
  refine ⟨b, { h₂ with store := s' }, L, q, row', idx', ?_, ?_, ?_, hlater, ?_, rfl, ?_, hkept⟩
  · simp only [grow, HeapM.bind_apply, HeapM.lift_except, hadd, Nat.not_le.mpr hfits, if_false,
      hclaim, hregion, HeapM.lift_reading, htag, HeapM.lift_writing, wordSize, hwrite₁, habove,
      hwrite₂, log_told, ← hh₂, HeapM.lift_store, hstore, hrun]
  · rw [hh₂]
    exact told_arena _ _
  · refine hl.next hlater (hsame.sane hsane) ?_ fun x hx => hkept x (.inl hx)
    show Sound h₂.bounds _ _ _ _
    rw [hbounds]
    exact hsound
  · show h₂.bounds.high = _
    rw [hbounds, hhigh']
  · show Merged _ (L ++ _ :: ⟨h₂.bounds.high, _⟩ :: []) _ _ _ _
    rw [hbounds]
    exact hmerged

/-- When the arena fails, so does growing. -/
theorem grow_denied (hs : LawfulArena.Sane h.arena) {words : Nat} {e : ArenaError} {a : A}
    (hw : words + 1 < wordLimit) (hfits : (words + words % 2) * 8 < wordLimit)
    (hx : Arena.extend ((words + words % 2) * 8) h.arena = .error e a) :
    ∃ h', grow words h = .error (.refused (.arena e)) h' ∧ Same h h' ∧ h'.arena = a := by
  have hadd : checkedAdd words (words % 2) = .ok (words + words % 2) := checkedAdd_ok (by omega)
  obtain ⟨h1, h2, h3⟩ := LawfulArena.extend_error hs hx
  have hsame : Same h { h with arena := a } :=
    ⟨rfl, rfl, rfl, by simp only [bounds, h1, h2], fun _ => h3⟩
  refine ⟨_, ?_, hsame.trans (same_told _ (.cannotGrow ((words + words % 2) * wordSize))),
    told_arena _ _⟩
  simp only [grow, HeapM.bind_apply, HeapM.lift_except, hadd, Nat.not_le.mpr hfits, if_false,
    claimOrTell_apply, hx]

/-- Growing answers with a free block over the new bytes and what was free below them, or is
    refused. -/
theorem grow_spec (hl : Laid h row idx) {words : Nat} (hw : words + 1 < wordLimit)
    (h4 : 4 ≤ words) :
    (∃ e h', grow words h = .error (.refused e) h' ∧ Same h h') ∨
    ∃ b h' L q row' idx', grow words h = .ok b h' ∧ Laid h' row' idx' ∧ Later h h' ∧
      h'.bounds.high = h.bounds.high + (words + words % 2) * 8 ∧
      row = L ++ [⟨h.bounds.high, ⟨0, q, true⟩⟩] ∧
      Merged ⟨h.bounds.high, ⟨(words + words % 2) * 8, q, false⟩⟩
        (L ++ ⟨h.bounds.high, ⟨(words + words % 2) * 8, q, false⟩⟩ ::
        ⟨h'.bounds.high, ⟨0, false, true⟩⟩ :: []) idx b row' idx' ∧
      Kept h.firstBlock (held row') h.store.memory h'.store.memory := by
  by_cases hbig : wordLimit ≤ (words + words % 2) * 8
  · have hadd : checkedAdd words (words % 2) = .ok (words + words % 2) := checkedAdd_ok (by omega)
    refine .inl ⟨.requestTooLarge (words + words % 2), h, ?_, Same.refl h⟩
    simp only [grow, HeapM.bind_apply, HeapM.lift_except, hadd, hbig, if_true, refuse_apply]
  rcases hx : Arena.extend ((words + words % 2) * 8) h.arena with ⟨start, a⟩ | ⟨e, a⟩
  · obtain ⟨b, h', L, q, row', idx', hgrow, -, hrest⟩ := grow_met hl hw h4 (Nat.not_le.mp hbig) hx
    exact .inr ⟨b, h', L, q, row', idx', hgrow, hrest⟩
  · obtain ⟨h', hgrow, hsame, -⟩ := grow_denied hl.sane hw (Nat.not_le.mp hbig) hx
    exact .inl ⟨.arena e, h', hgrow, hsame⟩

/-! ## A block for a request -/

/-- Of the live blocks of one heap and the next, `e` is new. -/
structure Gained (e : Entry) (row row' : List Tile) : Prop where
  mem : ∀ f, f ∈ live row' ↔ f = e ∨ f ∈ live row
  fresh : ∀ f ∈ live row, f.bp ≠ e.bp

theorem gained_of_held (hl : Laid h (L ++ t :: v :: R) idx) (hfree : t.tag.alloc = false) {k : Nat}
    (hk : 0 < k) (hheld : held row = held L ++ ⟨t.bp, k⟩ :: held (v :: R)) :
    Gained ⟨t.bp, k⟩ (L ++ t :: v :: R) row := by
  refine ⟨?_, ?_⟩
  · intro f
    rw [mem_live, mem_live, hheld, held_append, held_cons_free hfree]
    simp only [List.mem_append, List.mem_cons]
    constructor
    · rintro ⟨h1 | h1 | h1, h2⟩
      · exact .inr ⟨.inl h1, h2⟩
      · exact .inl h1
      · exact .inr ⟨.inr h1, h2⟩
    · rintro (rfl | ⟨h1 | h1, h2⟩)
      · exact ⟨.inr (.inl rfl), by simp only; omega⟩
      · exact ⟨.inl h1, h2⟩
      · exact ⟨.inr (.inr h1), h2⟩
  · intro f hf hbp
    obtain ⟨u, hu, ha, rfl, -⟩ := hl.tiled.mem_live.mp hf
    obtain rfl := hl.tiled.row.eq_of_bp_eq hu (by simp : t ∈ L ++ t :: v :: R) hbp
    rw [hfree] at ha
    cases ha

/-- A free block that is big enough is taken. -/
theorem place_laid (hl : Laid h (L ++ t :: v :: R) idx) (hfree : t.tag.alloc = false) {size : Nat}
    (h8 : size % 8 = 0) (h32 : 32 ≤ size) (hle : size ≤ t.tag.size) :
    ∃ s' row' idx', Store.place h.bounds t.bp size h.store = .ok () s' ∧
      Laid { h with store := s' } row' idx' ∧
      Carved L t v R size (idx.erase t.entry) row' idx' ∧
      Gained ⟨t.bp, allotted size t.tag.size⟩ (L ++ t :: v :: R) row' ∧
      Kept h.firstBlock (live (L ++ t :: v :: R)) h.store.memory s'.memory := by
  obtain ⟨s', row', idx', hrun, hcarved, hsound, hkept⟩ := hl.sound.place_spec hfree h8 h32 hle
  have hpos := le_allotted hle
  refine ⟨s', row', idx', hrun,
    hl.next ⟨rfl, rfl, rfl, Nat.le_refl _⟩ hl.sane hsound fun x hx => hkept x (.inl hx), hcarved,
    gained_of_held hl hfree (by omega) hcarved.held_eq, fun x hx => hkept x (guarded_live.mpr hx)⟩

/-- What a successful allocation has done, and that all else is as it was. -/
structure Allocated (h h' : Heap A) (row row' : List Tile) (request : Nat) (e : Entry) : Prop where
  later : Later h h'
  gained : Gained e row row'
  room : request + 8 ≤ e.size
  kept : Kept h.firstBlock (live row) h.store.memory h'.store.memory

/-- The last part of `allocateBlock`. -/
def take (request size bp : Nat) (log : Bool) : HeapM A Nat := do
  let r ← region
  Store.place r bp size
  if log then
    emit (.allocated request (← r.size bp) bp)
  return bp

/-- A free block is taken, and an event tells of it if events are kept. -/
theorem take_spec (hl : Laid h (L ++ t :: v :: R) idx) (hfree : t.tag.alloc = false) {size : Nat}
    (h8 : size % 8 = 0) (h32 : 32 ≤ size) (hle : size ≤ t.tag.size) (request : Nat) (log : Bool) :
    ∃ h' row' idx', take request size t.bp log h = .ok t.bp h' ∧ Laid h' row' idx' ∧ Later h h' ∧
      h'.arena = h.arena ∧
      Carved L t v R size (idx.erase t.entry) row' idx' ∧
      Gained ⟨t.bp, allotted size t.tag.size⟩ (L ++ t :: v :: R) row' ∧
      Kept h.firstBlock (live (L ++ t :: v :: R)) h.store.memory h'.store.memory := by
  obtain ⟨s', row', idx', hrun, hl', hcarved, hgained, hkept⟩ := place_laid hl hfree h8 h32 hle
  obtain ⟨u, hu, -, hbp, -⟩ := hl'.tiled.mem_live.mp ((hgained.mem _).mpr (.inl rfl))
  have hsize : h.bounds.size t.bp s'.memory = .ok u.tag.size := by
    rw [← (Entry.mk.inj hbp).1]
    exact hl'.tiled.size hu
  cases log with
  | false =>
    refine ⟨{ h with store := s' }, row', idx', ?_, hl', ⟨rfl, rfl, rfl, Nat.le_refl _⟩, rfl,
      hcarved, hgained, hkept⟩
    simp only [take, HeapM.bind_apply, hl.region, HeapM.lift_store, hrun, Bool.false_eq_true,
      if_false, HeapM.pure_apply]
  | true =>
    have hsame : Same { h with store := s' }
        { h with store := s', trace := h.trace.push (.allocated request u.tag.size t.bp) } :=
      ⟨rfl, rfl, rfl, rfl, id⟩
    refine ⟨_, row', idx', ?_, hl'.same hsame, ⟨rfl, rfl, rfl, Nat.le_refl _⟩, rfl, hcarved,
      hgained, hkept⟩
    simp only [take, HeapM.bind_apply, hl.region, HeapM.lift_store, hrun, if_true,
      HeapM.lift_reading, hsize, emit_apply, HeapM.pure_apply]

/-- What a search finds is a free block that fits. -/
theorem Laid.found (hl : Laid h row idx) {size : Nat} (hfind : idx.find size = some e) :
    ∃ L t v R, row = L ++ t :: v :: R ∧ t.tag.alloc = false ∧ t.entry = e ∧ size ≤ t.tag.size := by
  obtain ⟨⟨c, hc⟩, hle⟩ := Index.mem_of_find hfind
  obtain ⟨t, ht, hfree, rfl⟩ := mem_vacant.mp ((hl.sound.filed.covers c e).mp hc).2
  obtain ⟨L, v, R, rfl⟩ := hl.tiled.row.split ht ((hl.tiled.fits ht).room hfree)
  exact ⟨L, t, v, R, rfl, hfree, rfl, hle⟩

/-- The words that a heap grows by for a block of `size` bytes. -/
def growth (c : Config) (size : Nat) : Nat := max size (c.chunkWords * wordSize) / wordSize

theorem growth_bounds (c : Config) {size : Nat} (h32 : 32 ≤ size) (hmax : size ≤ maxChunkSize) :
    growth c size + 1 < wordLimit ∧ 4 ≤ growth c size ∧
    (size % 8 = 0 → size ≤ (growth c size + growth c size % 2) * 8) := by
  have hchunk : c.chunkBytes ≤ 9223372036854775800 := c.chunkBytes_le
  have hwords := c.chunkWords_mul
  have hmax' : size ≤ 9223372036854775800 := hmax
  have hle : max size (c.chunkWords * 8) ≤ 9223372036854775800 := by omega
  have hge : size ≤ max size (c.chunkWords * 8) := Nat.le_max_left _ _
  simp only [growth, wordSize, wordLimit]
  generalize max size (c.chunkWords * 8) = bytes at hle hge
  omega

/-- When no free block fits, growing makes one that does, or is refused. -/
theorem Laid.grown (hl : Laid h row idx) {size : Nat} (h8 : size % 8 = 0) (h32 : 32 ≤ size)
    (hmax : size ≤ maxChunkSize) :
    (∃ e h', grow (growth h.config size) h = .error (.refused e) h' ∧ Same h h') ∨
    ∃ L t v R idx' h', grow (growth h.config size) h = .ok t.bp h' ∧
      Laid h' (L ++ t :: v :: R) idx' ∧ Later h h' ∧ t.tag.alloc = false ∧
      size ≤ t.tag.size ∧ live (L ++ t :: v :: R) = live row ∧
      Kept h.firstBlock (live row) h.store.memory h'.store.memory := by
  obtain ⟨hlt, h4, hroom⟩ := growth_bounds h.config h32 hmax
  rcases grow_spec hl hlt h4 with
    hrefused | ⟨b, h', L, q, row', idx', hgrow, hl', hlater, -, rfl, hmerged, hkept⟩
  · exact .inl hrefused
  have hlive : live row' = live (L ++ [⟨h.bounds.high, ⟨0, q, true⟩⟩]) := by
    rw [live, hmerged.held_eq, held_append, held_cons_free rfl, ← held_append]
    exact (live_epilogue _ _ _).trans (live_epilogue _ _ _).symm
  obtain ⟨t, ht, rfl, hfree, hbp, hstop⟩ := hmerged.mem
  have hle : size ≤ t.tag.size := by simp only [Tile.stop] at *; omega
  obtain ⟨L', v, R, rfl⟩ := hl'.tiled.row.split ht (Nat.le_trans h32 hle)
  exact .inr ⟨L', t, v, R, idx', h', hgrow, hl', hlater, hfree, hle, hlive,
    fun x hx => hkept x (guarded_live.mpr (hlive ▸ hx))⟩

/-- A request that is not refused for its size. -/
theorem blockSize_cases (request : Nat) : blockSize request = .error (.requestTooLarge request) ∨
    ∃ size, blockSize request = .ok size ∧ size % 8 = 0 ∧ 32 ≤ size ∧ request + 8 ≤ size ∧
      size ≤ maxChunkSize := by
  by_cases hbig : signedMax - doubleWord < request
  · exact .inl (blockSize_refused hbig)
  · obtain ⟨size, hblock, h8, h32, hroom, hleast⟩ := blockSize_eq (Nat.not_lt.mp hbig)
    refine .inr ⟨size, hblock, h8, h32, hroom, hleast _ (by decide) (by decide) ?_⟩
    simp only [signedMax, doubleWord] at hbig
    show request + 8 ≤ 9223372036854775800
    omega

/-- What is known of the size of a block. -/
theorem blockSize_ok {size : Nat} (h : blockSize request = .ok size) :
    size % 8 = 0 ∧ 32 ≤ size ∧ request + 8 ≤ size ∧ size ≤ maxChunkSize := by
  rcases blockSize_cases request with hblock | ⟨size', hblock, hsize⟩
  · rw [hblock] at h
    cases h
  · rw [hblock] at h
    exact Except.ok.inj h ▸ hsize

theorem allocateBlock_found (hl : Laid h row idx) {size : Nat}
    (hsize : blockSize request = .ok size) (hfind : idx.find size = some e) :
    allocateBlock request h = take request size e.bp h.config.logEvents h := by
  have hfit := hl.sound.filed.files.findFit (blockSize_ok hsize).2.1
  rw [hfind] at hfit
  simp only [allocateBlock, HeapM.bind_apply, hsize, HeapM.pure_apply, hl.region, HeapM.get_apply,
    HeapM.lift_reading, hfit, Option.map_some, take]

theorem allocateBlock_grown (hl : Laid h row idx) {size b : Nat} {g : Heap A}
    (hsize : blockSize request = .ok size) (hfind : idx.find size = none)
    (hgrow : grow (growth h.config size) h = .ok b g) :
    allocateBlock request h = take request size b h.config.logEvents g := by
  have hfit := hl.sound.filed.files.findFit (blockSize_ok hsize).2.1
  rw [hfind] at hfit
  simp only [growth] at hgrow
  simp only [allocateBlock, HeapM.bind_apply, hsize, HeapM.pure_apply, hl.region, HeapM.get_apply,
    HeapM.lift_reading, hfit, Option.map_none, hgrow, take]

theorem allocateBlock_denied (hl : Laid h row idx) {size : Nat} {g : Heap A}
    (hsize : blockSize request = .ok size) (hfind : idx.find size = none) {stop : Stop}
    (hgrow : grow (growth h.config size) h = .error stop g) :
    allocateBlock request h = .error stop g := by
  have hfit := hl.sound.filed.files.findFit (blockSize_ok hsize).2.1
  rw [hfind] at hfit
  simp only [growth] at hgrow
  simp only [allocateBlock, HeapM.bind_apply, hsize, HeapM.pure_apply, hl.region, HeapM.get_apply,
    HeapM.lift_reading, hfit, Option.map_none, hgrow]

/-- A block for a request, from a free block that fits or from a grown arena; or a refusal. -/
theorem allocateBlock_spec (hl : Laid h row idx) (request : Nat) :
    (∃ e h', allocateBlock request h = .error (.refused e) h' ∧ Same h h') ∨
    ∃ e h' row' idx', allocateBlock request h = .ok e.bp h' ∧ Laid h' row' idx' ∧
      Allocated h h' row row' request e := by
  rcases blockSize_cases request with hblock | ⟨size, hblock, h8, h32, hroom, hmax⟩
  · refine .inl ⟨.requestTooLarge request, h, ?_, Same.refl h⟩
    simp only [allocateBlock, HeapM.bind_apply, hblock, refuse_apply]
  rcases hfind : idx.find size with _ | e
  · -- no free block fits
    rcases hl.grown h8 h32 hmax with
      ⟨e, h', hgrow, hsame⟩ | ⟨L, t, v, R, idx₁, h₁, hgrow, hl₁, hlater, hfree, hle, hlive, hkept⟩
    · exact .inl ⟨e, h', allocateBlock_denied hl hblock hfind hgrow, hsame⟩
    · obtain ⟨h', row', idx', hrun, hl', hlater', -, -, hgained, hkept'⟩ :=
        take_spec hl₁ hfree h8 h32 hle request h.config.logEvents
      rw [hlive] at hkept'
      refine .inr ⟨⟨t.bp, allotted size t.tag.size⟩, h', row', idx',
        (allocateBlock_grown hl hblock hfind hgrow).trans hrun, hl',
        hlater.trans hlater', ⟨?_, ?_⟩, ?_, ?_⟩
      · rw [← hlive]; exact hgained.mem
      · rw [← hlive]; exact hgained.fresh
      · have := le_allotted hle; simp only; omega
      · intro x hx
        rw [hkept' x (hlater.firstBlock ▸ hx), hkept x hx]
  · -- the first block that fits
    obtain ⟨L, t, v, R, rfl, hfree, rfl, hle⟩ := hl.found hfind
    obtain ⟨h', row', idx', hrun, hl', hlater, -, -, hgained, hkept⟩ :=
      take_spec hl hfree h8 h32 hle request h.config.logEvents
    refine .inr ⟨⟨t.bp, allotted size t.tag.size⟩, h', row', idx',
      (allocateBlock_found hl hblock hfind).trans hrun, hl', hlater, hgained,
      ?_, hkept⟩
    have := le_allotted hle
    simp only
    omega

/-! ## Allocating and zeroing -/

/-- The new block's bytes may be set. -/
theorem Allocated.withMemory (ha : Allocated h h' row row' request e) (hl : Laid h' row' idx')
    {m : Memory} (hm : ∀ x, ¬ e.Payload x → m.byte x = h'.store.memory.byte x) :
    Laid (h'.withMemory m) row' idx' ∧ Allocated h (h'.withMemory m) row row' request e := by
  have he : e ∈ live row' := (ha.gained.mem e).mpr (.inl rfl)
  refine ⟨hl.withMemory (Laid.confined he hm),
    ⟨ha.later.prologue, ha.later.config, ha.later.low, ha.later.high_le⟩, ha.gained, ha.room, ?_⟩
  intro x hx
  rw [← ha.kept x hx]
  refine hm x
    (hl.outside_payload he (fun f hf => ⟨(ha.gained.mem f).mpr (.inr hf), ha.gained.fresh f hf⟩) ?_)
  rwa [ha.later.firstBlock]

theorem allocate_spec (hl : Laid h row idx) (hc : h.Checkable) (size : Nat) :
    (∃ h', Answers (allocate size) h none h' ∧ Same h h') ∨
    ∃ e h' row' idx', Answers (allocate size) h (some e.bp) h' ∧ Laid h' row' idx' ∧
      Allocated h h' row row' size e := by
  by_cases h0 : size = 0
  · exact .inl ⟨h, .of_ok (by rw [allocate, if_pos h0]; rfl) hc, Same.refl h⟩
  rcases allocateBlock_spec hl size with ⟨e, h', hrun, hsame⟩ | ⟨e, h', row', idx', hrun, hl', ha⟩
  · refine .inl ⟨h', .of_ok ?_ (hsame.checkable hc), hsame⟩
    simp only [allocate, h0, if_false, HeapM.bind_apply, attempt_refused hrun]
    rfl
  · refine .inr ⟨e, h', row', idx', .checked hl' .allocate ?_, hl', ha⟩
    simp only [allocate, h0, if_false, HeapM.bind_apply, attempt_ok hrun]

theorem tryZeroAllocate_spec (hl : Laid h row idx) (hc : h.Checkable) (count elemSize : Nat) :
    (∃ e h', tryZeroAllocate count elemSize h = .error (.refused e) h' ∧ Same h h') ∨
    Answers (tryZeroAllocate count elemSize) h none h ∨
    ∃ e h' row' idx', Answers (tryZeroAllocate count elemSize) h (some e.bp) h' ∧
      Laid h' row' idx' ∧
      Allocated h h' row row' (count * elemSize) e ∧ ∀ i, i < count * elemSize →
      h'.store.memory.byte (e.bp + i) = 0 := by
  by_cases hbig : wordLimit ≤ count * elemSize
  · refine .inl ⟨.sizeOverflow count elemSize, h.told (.sizeOverflow count elemSize), ?_,
      same_told h _⟩
    simp only [tryZeroAllocate, hbig, if_true, HeapM.bind_apply, log_told, refuse_apply]
  by_cases h0 : count * elemSize = 0
  · exact .inr (.inl (.of_ok (by simp only [tryZeroAllocate, h0, if_true]; rfl) hc))
  rcases allocateBlock_spec hl (count * elemSize) with
    ⟨e, h', hrun, hsame⟩ | ⟨e, h', row', idx', hrun, hl', ha⟩
  · refine .inl ⟨e, h', ?_, hsame⟩
    simp only [tryZeroAllocate, hbig, h0, if_false, HeapM.bind_apply, hrun]
  · have hroom := ha.room
    obtain ⟨hl'', ha'⟩ :=
      ha.withMemory hl' (m := h'.store.memory.fill e.bp 0 (count * elemSize)) fun x hx => by
      rw [Memory.byte_fill, if_neg fun hin => hx ⟨hin.1, by omega⟩]
    refine .inr (.inr ⟨e, _, row', idx', .checked hl'' .zeroAllocate ?_, hl'', ha', ?_⟩)
    · simp only [tryZeroAllocate, hbig, h0, if_false, HeapM.bind_apply, hrun, modifyMemory_apply]
    · intro i hi
      show (Memory.fill _ _ _ _).byte _ = _
      rw [Memory.byte_fill, if_pos ⟨Nat.le_add_right _ _, Nat.add_lt_add_left hi _⟩]

theorem zeroAllocate_spec (hl : Laid h row idx) (hc : h.Checkable) (count elemSize : Nat) :
    (∃ h', Answers (zeroAllocate count elemSize) h none h' ∧ Same h h') ∨
    ∃ e h' row' idx', Answers (zeroAllocate count elemSize) h (some e.bp) h' ∧ Laid h' row' idx' ∧
      Allocated h h' row row' (count * elemSize) e ∧ ∀ i, i < count * elemSize →
      h'.store.memory.byte (e.bp + i) = 0 := by
  rcases tryZeroAllocate_spec hl hc count elemSize with ⟨e, h', hrun, hsame⟩ | hnone |
    ⟨e, h', row', idx', hrun, hl', ha, hzero⟩
  · refine .inl ⟨h', .of_ok ?_ (hsame.checkable hc), hsame⟩
    simp only [zeroAllocate, HeapM.bind_apply, attempt_refused hrun]
    rfl
  · exact .inl ⟨h, hnone.attempt.bind rfl, Same.refl h⟩
  · exact .inr ⟨e, h', row', idx', hrun.attempt.bind rfl, hl', ha, hzero⟩

/-! ## A new heap -/

omit [LawfulArena A] in
/-- Four words between the old high end and the new one, the last of them an epilogue. -/
theorem sound_epilogue {r : Region} {m : Memory} (hlow : r.low + 32 ≤ r.high) (h8 : r.high % 8 = 0)
    (hlt : r.high < wordLimit) (hw : m.word (r.high - 8) = Tag.encode ⟨0, true, true⟩) :
    Sound r r.high ⟨m, .empty⟩ [⟨r.high, ⟨0, true, true⟩⟩] Index.empty := by
  refine ⟨⟨⟨.epilogue true, ?_, hlow, h8, hlt⟩, ?_, ?_, List.nil_sublist _⟩, ?_⟩
  · intro t ht
    obtain rfl := List.mem_singleton.mp ht
    exact ⟨hw, fun h => Bool.noConfusion h⟩
  · exact ⟨fun c => Buckets.head_empty c, fun _ => trivial,
      fun _ _ he => absurd he List.not_mem_nil, fun _ _ he => absurd he List.not_mem_nil,
      fun _ _ => List.Pairwise.nil, fun _ => List.nodup_nil, fun _ _ he =>
        absurd he List.not_mem_nil, hlt⟩
  · intro c e
    exact ⟨fun he => absurd he List.not_mem_nil, fun he => absurd he.2 List.not_mem_nil⟩
  · intro t ht hfree
    obtain rfl := List.mem_singleton.mp ht
    cases hfree

/-- A heap of four words at the arena's high end is laid, with nothing but its epilogue. -/
theorem laid_epilogue {start : Nat} (hsane : LawfulArena.Sane h.arena)
    (hlow : Arena.low h.arena % 8 = 0) (hle : Arena.low h.arena ≤ start)
    (hhigh : Arena.high h.arena = start + 32) (h8 : start % 8 = 0)
    (hlt : Arena.high h.arena < wordLimit) (hprologue : h.prologue = start + 16)
    (hbuckets : h.store.buckets = .empty)
    (hheader : h.store.memory.word (start + 8) = Tag.encode ⟨16, true, true⟩)
    (hfooter : h.store.memory.word (start + 16) = Tag.encode ⟨16, true, true⟩)
    (hlast : h.store.memory.word (start + 24) = Tag.encode ⟨0, true, true⟩) :
    Laid h [⟨h.bounds.high, ⟨0, true, true⟩⟩] Index.empty := by
  have hbounds : h.bounds.high = start + 32 := hhigh
  have hfirst : h.firstBlock = h.bounds.high := by rw [firstBlock, hprologue, hbounds, doubleWord,
      Nat.add_assoc]
  refine ⟨?_, hsane, hlow, by rw [hprologue]; exact hheader, by rw [hprologue]; exact hfooter⟩
  rw [hfirst, show h.store = ⟨h.store.memory, .empty⟩ by rw [← hbuckets]]
  exact sound_epilogue (by rw [hbounds]; exact Nat.add_le_add_right hle 32) (by omega) hlt
    (by rw [hbounds]; exact hlast)

/-- The four words that a new heap writes before it has a block. -/
def founded (m : Memory) (start : Nat) : Memory :=
  (((m.setWord start 0).setWord (start + 8) (Tag.encode ⟨16, true, true⟩)).setWord
    (start + 16) (Tag.encode ⟨16, true, true⟩)).setWord
    (start + 24) (Tag.encode ⟨0, true, true⟩)

theorem founded_header (m : Memory) (start : Nat) :
    (founded m start).word (start + 8) = Tag.encode ⟨16, true, true⟩ := by
  rw [founded, Memory.word_setWord_apart _ _ (by omega), Memory.word_setWord_apart _ _ (by omega),
    Memory.word_setWord_of_lt _ (by decide)]

theorem founded_footer (m : Memory) (start : Nat) :
    (founded m start).word (start + 16) = Tag.encode ⟨16, true, true⟩ := by
  rw [founded, Memory.word_setWord_apart _ _ (by omega), Memory.word_setWord_of_lt _ (by decide)]

theorem founded_last (m : Memory) (start : Nat) :
    (founded m start).word (start + 24) = Tag.encode ⟨0, true, true⟩ := by
  rw [founded, Memory.word_setWord_of_lt _ (by decide)]

theorem founded_below (m : Memory) {start x : Nat} (h : x < start) :
    (founded m start).byte x = m.byte x := by
  rw [founded, Memory.byte_setWord_apart _ _ (by omega), Memory.byte_setWord_apart _ _ (by omega),
    Memory.byte_setWord_apart _ _ (by omega), Memory.byte_setWord_apart _ _ (by omega)]

/-- The first extension puts one free block over the new bytes. -/
theorem grow_epilogue (hl : Laid h [⟨h.bounds.high, ⟨0, true, true⟩⟩] idx) {words b : Nat}
    (hw : words + 1 < wordLimit) (h4 : 4 ≤ words) (hrun : grow words h = .ok b h') :
    ∃ row idx', Laid h' row idx' ∧ Later h h' ∧ live row = [] ∧
      h.bounds.high + 32 ≤ h'.bounds.high ∧
      ∀ x, x + 8 < h.firstBlock → h'.store.memory.byte x = h.store.memory.byte x := by
  rcases grow_spec hl hw h4 with
    ⟨e, h₁, hgrow, -⟩ | ⟨b₁, h₁, L, q, row, idx', hgrow, hl', hlater, hhigh, hrow, hmerged, hkept⟩
  · rw [hgrow] at hrun
    cases hrun
  · rw [hgrow] at hrun
    injection hrun with _ hh
    subst hh
    refine ⟨row, idx', hl', hlater, ?_, by omega, fun x hx => hkept x (.inl hx)⟩
    have hL : L = [] := by
      have := congrArg List.length hrow
      simp only [List.length_cons, List.length_nil, List.length_append] at this
      exact List.eq_nil_of_length_eq_zero (by omega)
    rw [live, hmerged.held_eq, held_append, held_cons_free rfl, hL]
    exact live_epilogue [] _ _

/-- The heap stands where it was founded, above what was there before. -/
structure Founded (arena : A) (memory : Memory) (h : Heap A) : Prop where
  prologue : h.prologue = Arena.high arena + 16
  room : h.firstBlock + 32 ≤ h.bounds.high
  below : ∀ x, x < Arena.high arena → h.store.memory.byte x = memory.byte x

omit [LawfulArena A] in
/-- The arena's side of a claim that was met. -/
theorem claim_ok {bytes start : Nat} (hrun : claim bytes h = .ok start h') :
    ∃ a, Arena.extend bytes h.arena = .ok start a ∧ h' = { h with arena := a } := by
  rcases hx : Arena.extend bytes h.arena with ⟨given, a⟩ | ⟨err, a⟩
  · simp only [claim, hx] at hrun
    cases hrun
    exact ⟨a, rfl, rfl⟩
  · simp only [claim, hx] at hrun
    cases hrun

/-- The arena has given the four words of a heap, and they are words of its. -/
structure Sited (arena a : A) (start : Nat) : Prop where
  given : Arena.extend metadataOverhead arena = .ok start a
  low_aligned : Arena.low a % 8 = 0
  low_le : Arena.low a ≤ start
  aligned : start % 8 = 0

/-- A heap of four words, before its first chunk, is laid. -/
theorem Sited.laid {arena a : A} {start : Nat} (hsite : Sited arena a start)
    (hs : LawfulArena.Settles arena) (memory : Memory) (config : Config) (trace : Array Event) :
    Laid ⟨a, ⟨founded memory start, .empty⟩, start + 16, config, trace⟩
      [⟨Arena.high a, ⟨0, true, true⟩⟩] Index.empty := by
  obtain ⟨hhigh, hlt, hsane⟩ := hs hsite.given
  exact laid_epilogue hsane hsite.low_aligned hsite.low_le hhigh hsite.aligned hlt rfl rfl
    (founded_header ..) (founded_footer ..) (founded_last ..)

/-- The first part of `setUp`: four words at the arena's high end. -/
def found : HeapM A Unit := do
  let start ← claim metadataOverhead
  if !(← isAligned start) then
    throw (.fault (.unalignedStart start))
  modify fun h => { h with prologue := start + doubleWord }
  let r ← region
  r.write start 0
  r.write (start + wordSize) (Tag.encode ⟨doubleWord, true, true⟩)
  r.write (start + doubleWord) (Tag.encode ⟨doubleWord, true, true⟩)
  r.write (start + 3 * wordSize) (Tag.encode ⟨0, true, true⟩)

omit [LawfulArena A] in
theorem setUp_eq : (setUp : HeapM A Unit) = (do
    found
    discard <| grow (← get).config.chunkWords
    checkAfter .init) := by
  simp only [setUp, found, bind_assoc]
  congr
  funext start
  congr
  funext aligned
  cases aligned with
  | false => rfl
  | true => simp only [Bool.not_true, Bool.false_eq_true, if_false, bind_assoc]

omit [LawfulArena A] in
/-- What founding a heap did, if it succeeded: it claimed four words at an aligned
    address, and wrote them. -/
theorem found_inv (hrun : found h = .ok () h') :
    ∃ start a, Sited h.arena a start ∧
      h' = ⟨a, ⟨founded h.store.memory start, h.store.buckets⟩, start + 16, h.config, h.trace⟩ := by
  rw [found] at hrun
  obtain ⟨start, h₁, hclaim, hrun⟩ := HeapM.bind_ok.mp hrun
  obtain ⟨aligned, h₂, hal, hrun⟩ := HeapM.bind_ok.mp hrun
  obtain rfl : aligned = true := by
    cases aligned with
    | true => rfl
    | false => cases hrun
  obtain ⟨_, h₃, hset, hrun⟩ := HeapM.bind_ok.mp hrun
  obtain ⟨r, h₄, hregion, hrun⟩ := HeapM.bind_ok.mp hrun
  obtain ⟨_, h₅, hwrite₅, hrun⟩ := HeapM.bind_ok.mp hrun
  obtain ⟨_, h₆, hwrite₆, hrun⟩ := HeapM.bind_ok.mp hrun
  obtain ⟨_, h₇, hwrite₇, hwrite₈⟩ := HeapM.bind_ok.mp hrun
  obtain ⟨a, hx, rfl⟩ := claim_ok hclaim
  rw [HeapM.lift_except] at hal
  cases hi : isAligned start with
  | error f => rw [hi] at hal; cases hal
  | ok aligned =>
    rw [hi] at hal
    injection hal with hb hh
    subst hb hh
    injection hset with _ hset
    subst hset
    obtain ⟨rfl, rfl, -, h8low⟩ := region_ok.mp hregion
    obtain ⟨hle, -, rfl⟩ := write_ok.mp hwrite₅
    obtain ⟨-, -, rfl⟩ := write_ok.mp hwrite₆
    obtain ⟨-, -, rfl⟩ := write_ok.mp hwrite₇
    obtain ⟨-, -, rfl⟩ := write_ok.mp hwrite₈
    exact ⟨start, a, ⟨hx, h8low, hle, (isAligned_true.mp hi).1⟩, rfl⟩

section Start

variable {arena : A} {memory : Memory} {config : Config}

omit [LawfulArena A] in
/-- What a start that succeeded did: it founded the heap, and made a first chunk. -/
theorem start_inv (hrun : Heap.start arena memory config = .ok () h) :
    ∃ start a b h₁, Sited arena a start ∧
    grow config.chunkWords ⟨a, ⟨founded memory start, .empty⟩, start + 16, config, #[]⟩ = .ok b h₁ ∧
      checkAfter .init h₁ = .ok () h := by
  rw [Heap.start, setUp_eq] at hrun
  obtain ⟨_, h₁, hfound, hrun⟩ := HeapM.bind_ok.mp hrun
  obtain ⟨_, h₂, hget, hrun⟩ := HeapM.bind_ok.mp hrun
  obtain ⟨_, h₃, hgrow, hcheck⟩ := HeapM.bind_ok.mp hrun
  injection hget with hget hh
  subst hget hh
  obtain ⟨start, a, hsite, rfl⟩ := found_inv hfound
  obtain ⟨b, hgrow⟩ := HeapM.discard_ok.mp hgrow
  exact ⟨start, a, b, h₃, hsite, hgrow, hcheck⟩

/-- A new heap has grown from one that had nothing but its epilogue. -/
theorem start_grown (hs : LawfulArena.Settles arena)
    (hrun : Heap.start arena memory config = .ok () h) :
    ∃ start a row idx, Sited arena a start ∧ Laid h row idx ∧ live row = [] ∧ h.Checkable ∧
      start + 64 ≤ h.bounds.high ∧
      Later ⟨a, ⟨founded memory start, .empty⟩, start + 16, config, #[]⟩ h ∧
      ∀ x, x + 8 < start + 32 → h.store.memory.byte x = (founded memory start).byte x := by
  obtain ⟨start, a, b, h₁, hsite, hgrow, hcheck⟩ := start_inv hrun
  have hl := hsite.laid hs memory config #[]
  obtain ⟨hwords, h4⟩ := config.chunkWords_bounds
  obtain ⟨row, idx, hl', hlater, hlive, hroom, hkept⟩ := grow_epilogue hl hwords h4 hgrow
  obtain ⟨rfl, hc⟩ := checkAfter_inv hl' hcheck
  have hbounds : Arena.high a + 32 ≤ h.bounds.high := hroom
  have hhigh : Arena.high a = start + 32 := (hs hsite.given).1
  exact ⟨start, a, row, idx, hsite, hl', hlive, hc, by omega, hlater, hkept⟩

/-- A new heap is laid and has no live block. -/
theorem start_settled (hs : LawfulArena.Settles arena)
    (hrun : Heap.start arena memory config = .ok () h) :
    (∃ row idx, Laid h row idx ∧ live row = []) ∧ h.Checkable ∧ h.config = config := by
  obtain ⟨start, a, row, idx, -, hl, hlive, hc, -, hlater, -⟩ := start_grown hs hrun
  exact ⟨⟨row, idx, hl, hlive⟩, hc, hlater.config⟩

variable (hs : LawfulArena.Sane arena)

include hs

/-- Over a sane arena, a new heap stands at the old high end. -/
theorem start_laid (hrun : Heap.start arena memory config = .ok () h) :
    (∃ row idx, Laid h row idx ∧ live row = []) ∧ h.Checkable ∧ Founded arena memory h := by
  obtain ⟨start, a, row, idx, hsite, hl, hlive, hc, hroom, hlater, hkept⟩ :=
    start_grown hs.settles hrun
  obtain ⟨rfl, -⟩ := LawfulArena.extend_ok hs hsite.given
  have hfirst : h.firstBlock = Arena.high arena + 32 := hlater.firstBlock
  refine ⟨⟨row, idx, hl, hlive⟩, hc, hlater.prologue, by omega, fun x hx => ?_⟩
  exact (hkept x (by omega)).trans (founded_below memory hx)

theorem start_config (hrun : Heap.start arena memory config = .ok () h) : h.config = config :=
  (start_settled hs.settles hrun).2.2

/-- A new heap keeps the low end of its arena. -/
theorem start_low (hrun : Heap.start arena memory config = .ok () h) :
    h.bounds.low = Arena.low arena ∧ Arena.low arena ≤ Arena.high arena := by
  obtain ⟨start, a, row, idx, hsite, -, -, -, -, hlater, -⟩ := start_grown hs.settles hrun
  obtain ⟨rfl, hlow, -⟩ := LawfulArena.extend_ok hs hsite.given
  exact ⟨hlater.low.trans hlow, hlow ▸ hsite.low_le⟩

end Start

end Heap

end BoundaryTag
