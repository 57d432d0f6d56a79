/-
  BoundaryTag.Proofs.Release — how a heap takes back a block.

  Null and rejected addresses change nothing. A live block's tile becomes free and is merged
  with the free tiles around it, and the allocated tiles are those of before without it
  (`Released`). As a row without touching free tiles is determined by its allocated ones, this
  says all there is to say about the row.

  Proved: a live address is always released (`tryRelease_live`, `release_live`); any other that
  a program may name is refused or ignored (`tryRelease_rejected`, `release_refused`).
-/

import BoundaryTag.Proofs.Allocation

namespace BoundaryTag

variable {r : Region} {first p : Nat} {m : Memory} {row row' : List Tile} {e : Entry}

/-- Leaving out one address leaves out one tile. -/
theorem Tiled.held_without {L R : List Tile} {t : Tile} (h : Tiled r m first (L ++ t :: R))
    (ha : t.tag.alloc = true) :
    ((held (L ++ t :: R)).filter fun e => e.bp != t.bp) = held L ++ held R := by
  have hn : (L ++ t :: R).Nodup := h.row.nodup
  have hne : ∀ us, (∀ u ∈ us, u ∈ L ++ t :: R ∧ u ≠ t) →
      ((held us).filter fun e => e.bp != t.bp) = held us := by
    intro us hus
    apply List.filter_eq_self.mpr
    intro e he
    obtain ⟨u, hu, -, rfl⟩ := mem_held.mp he
    obtain ⟨hin, hut⟩ := hus u hu
    simpa [Tile.entry] using fun hbp : u.bp = t.bp => hut (h.row.eq_of_bp_eq hin (by simp) hbp)
  rw [held_append, held_cons_alloc ha, List.filter_append, List.filter_cons]
  obtain ⟨-, hnt, hdisj⟩ := List.nodup_append.mp hn
  rw [hne L fun u hu => ⟨by simp [hu], fun he => hdisj u hu t (by simp) he⟩,
    hne R fun u hu => ⟨by simp [hu], fun he => (List.nodup_cons.mp hnt).1 (he ▸ hu)⟩]
  simp [Tile.entry]

theorem live_without (h : held row' = (held row).filter fun e => e.bp != p) :
    live row' = (live row).filter fun e => e.bp != p := by
  rw [live, live, h, List.filter_filter, List.filter_filter]
  exact List.filter_congr fun e _ => Bool.and_comm _ _

namespace Heap

variable {A : Type} [Arena A] [LawfulArena A] {h h' : Heap A} {L R : List Tile} {t u : Tile}
  {idx idx' : Index} {s' : Store} {addr : Nat}

/-- The block at `p` was taken back, and all else is as it was. -/
structure Released (h h' : Heap A) (row row' : List Tile) (p : Nat) : Prop where
  prologue : h'.prologue = h.prologue
  config : h'.config = h.config
  bounds : h'.bounds = h.bounds
  held : held row' = (held row).filter fun e => e.bp != p
  kept : Kept h.firstBlock (live row') h.store.memory h'.store.memory

omit [LawfulArena A] in
theorem Released.later {p : Nat} (hr : Released h h' row row' p) : Later h h' :=
  ⟨hr.prologue, hr.config, congrArg Region.low hr.bounds,
    Nat.le_of_eq (congrArg Region.high hr.bounds).symm⟩

/-- The address is turned down. -/
def Rejects (h : Heap A) (addr : Nat) : Prop :=
  ∃ fault, checkAddress addr h = .error (.refused (.invalidAddress addr fault)) h

/-- No live block is turned down. -/
theorem Rejects.not_live (hr : Rejects h addr) (hl : Laid h row idx) (he : e ∈ live row) :
    e.bp ≠ addr := by
  rintro rfl
  obtain ⟨fault, hr⟩ := hr
  rw [checkAddress_live hl he] at hr
  cases hr

theorem live_ne_zero (hl : Laid h row idx) (he : e ∈ live row) : e.bp ≠ 0 := by
  have h1 := hl.tiled.row.le_of_mem_held (mem_live.mp he).1
  have h2 := hl.tiled.low_le
  omega

/-- An allocated block is freed and merged with what is free around it. -/
theorem free_merged (hl : Laid h (L ++ t :: u :: R) idx) (ha : t.tag.alloc = true) :
    ∃ s' b row' idx', Store.free h.bounds t.bp h.store = .ok () s' ∧
      Laid { h with store := s' } row' idx' ∧
      Kept h.firstBlock (held row') h.store.memory s'.memory ∧
      Merged ⟨t.bp, ⟨t.tag.size, t.tag.prevAlloc, false⟩⟩
        (L ++ ⟨t.bp, ⟨t.tag.size, t.tag.prevAlloc, false⟩⟩ :: u.withPrev false :: R)
        idx b row' idx' := by
  obtain ⟨s', b, row', idx', hrun, hmerged, hsound, hkept⟩ := hl.sound.free_spec ha
  exact ⟨s', b, row', idx', hrun, hl.next ⟨rfl, rfl, rfl, Nat.le_refl _⟩ hl.sane hsound fun x hx =>
    hkept x (.inl hx), hkept, hmerged⟩

/-- Freeing the live block `e`. -/
theorem free_laid (hl : Laid h row idx) (he : e ∈ live row) :
    ∃ s' row' idx', Store.free h.bounds e.bp h.store = .ok () s' ∧
      Laid { h with store := s' } row' idx' ∧
      Released h { h with store := s' } row row' e.bp := by
  obtain ⟨t, ht, ha, rfl, h32⟩ := hl.tiled.mem_live.mp he
  obtain ⟨L, u, R, rfl⟩ := hl.tiled.row.split ht h32
  obtain ⟨s', b, row', idx', hrun, hl', hkept, hmerged⟩ := free_merged hl ha
  have hheld : held row' = (held (L ++ t :: u :: R)).filter fun e => e.bp != t.bp := by
    rw [hl.tiled.held_without ha, hmerged.held_eq, held_append, held_cons_free rfl, held_withPrev]
  refine ⟨s', row', idx', hrun, hl', rfl, rfl, rfl, hheld, ?_⟩
  exact fun x hx => hkept x (guarded_live.mpr hx)

omit [LawfulArena A] in
theorem tryRelease_null (h : Heap A) : tryRelease 0 h = .ok () h := rfl

omit [LawfulArena A] in
theorem tryRelease_rejected {e : HeapError} (hr : checkAddress addr h = .error (.refused e) h)
    (h0 : addr ≠ 0) :
    tryRelease addr h = .error (.refused e) h := by
  simp only [tryRelease, h0, if_false, HeapM.bind_apply, hr]

/-- The heap where the block was freed, with the event that tells of it. -/
theorem tryRelease_answers (hl : Laid h row idx) (he : e ∈ live row)
    (hfree : Store.free h.bounds e.bp h.store = .ok () s')
    (hl' : Laid { h with store := s' } row' idx') :
    Answers (tryRelease e.bp) h () (told { h with store := s' } (.released e.size e.bp)) := by
  refine .checked (hl'.same (same_told _ _)) .release ?_
  obtain ⟨t, ht, -, rfl, -⟩ := hl.tiled.mem_live.mp he
  have h0 := live_ne_zero hl he
  have hcheck := checkAddress_live hl he
  rw [bind_pure_unit]
  simp only [Tile.entry] at h0 hcheck hfree ⊢
  simp only [tryRelease, h0, if_false, HeapM.bind_apply, hcheck, hl.region, HeapM.lift_reading,
    hl.tiled.size ht, HeapM.lift_store, hfree, log_told]

theorem tryRelease_live (hl : Laid h row idx) (he : e ∈ live row) :
    ∃ h' row' idx', Answers (tryRelease e.bp) h () h' ∧ Laid h' row' idx' ∧
      Released h h' row row' e.bp := by
  obtain ⟨s', row', idx', hrun, hl', hreleased⟩ := free_laid hl he
  have hsame := same_told { h with store := s' } (.released e.size e.bp)
  refine ⟨_, row', idx', tryRelease_answers hl he hrun hl', hl'.same hsame, ?_⟩
  exact ⟨hsame.prologue, hsame.config, hsame.bounds, hreleased.held, hsame.store ▸ hreleased.kept⟩

omit [LawfulArena A] in
/-- The plain operation releases what the other does. -/
theorem Answers.release (hx : Answers (tryRelease addr) h () h') : Answers (release addr) h () h' :=
  hx.attempt.bind rfl

/-- Where the other refuses, the plain operation does nothing. -/
theorem release_refused {e : HeapError} (hx : tryRelease addr h = .error (.refused e) h')
    (hs : Same h h') :
    ∃ h'', release addr h = .ok () h'' ∧ Same h h'' := by
  have hx := attempt_refused hx
  cases e with
  | invalidAddress addr fault =>
    exact ⟨h'.told (.ignored .release addr fault),
      by simp only [Heap.release, HeapM.bind_apply, hx, log_told], hs.trans (same_told _ _)⟩
  | _ => exact ⟨h', by simp only [Heap.release, HeapM.bind_apply, hx]; rfl, hs⟩

theorem release_live (hl : Laid h row idx) (he : e ∈ live row) :
    ∃ h' row' idx', Answers (release e.bp) h () h' ∧ Laid h' row' idx' ∧
      Released h h' row row' e.bp := by
  obtain ⟨h', row', idx', hrun, hl', hreleased⟩ := tryRelease_live hl he
  exact ⟨h', row', idx', hrun.release, hl', hreleased⟩

end Heap

end BoundaryTag
