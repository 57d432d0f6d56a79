/-
  BoundaryTag.Proofs.Reallocation — how a heap gives a block a new size.

  The block is cut, takes in the free block behind it, or moves. In each case one live block
  stands for another (`Swapped`), the bytes both have room for are carried over, and nothing
  else changes (`Resized`).

  Proved: reallocating a live block does this or is refused and changes nothing
  (`tryReallocate_live`); null allocates and no bytes release.
-/

import BoundaryTag.Proofs.Release

namespace BoundaryTag

variable {r : Region} {first : Nat} {m : Memory} {row row' xs ys : List Tile} {e e' : Entry}

theorem Tiled.nodup_held (h : Tiled r m first row) : (held row).Nodup := by
  refine List.Nodup.map_on ?_ (h.row.nodup.filter _)
  intro t ht u hu he
  exact h.row.eq_of_bp_eq (List.mem_filter.mp ht).1 (List.mem_filter.mp hu).1 (congrArg Entry.bp he)

/-- Of the live blocks of one heap and the next, `e'` stands for `e`. -/
structure Swapped (e e' : Entry) (row row' : List Tile) : Prop where
  mem : ∀ f, f ∈ live row' ↔ f = e' ∨ f ∈ live row ∧ f ≠ e
  fresh : ∀ f ∈ live row, f ≠ e → f.bp ≠ e'.bp

/-- A block that stays where it is. -/
theorem Tiled.swapped {hs hs' : List Entry} (h : Tiled r m first row)
    (hold : held row = hs ++ e :: hs') (hnew : held row' = hs ++ e' :: hs') (hbp : e'.bp = e.bp)
    (hpos : e.size ≠ 0) (hpos' : e'.size ≠ 0) : Swapped e e' row row' := by
  have hn := h.nodup_held
  rw [hold] at hn
  have hout : e ∉ hs ++ hs' := (List.nodup_middle.mp hn).notMem
  refine ⟨?_, fun f hf hne he => hne ?_⟩
  · intro f
    simp only [BoundaryTag.mem_live, hold, hnew, List.mem_append, List.mem_cons] at hout ⊢
    constructor
    · rintro ⟨hf | rfl | hf, h0⟩
      · exact .inr ⟨⟨.inl hf, h0⟩, fun he => hout (.inl (he ▸ hf))⟩
      · exact .inl rfl
      · exact .inr ⟨⟨.inr (.inr hf), h0⟩, fun he => hout (.inr (he ▸ hf))⟩
    · rintro (rfl | ⟨⟨hf | rfl | hf, h0⟩, hne⟩)
      · exact ⟨.inr (.inl rfl), hpos'⟩
      · exact ⟨.inl hf, h0⟩
      · exact absurd rfl hne
      · exact ⟨.inr (.inr hf), h0⟩
  · exact h.live_inj hf (BoundaryTag.mem_live.mpr ⟨by rw [hold]; simp, hpos⟩) (he.trans hbp)

namespace Heap

variable {A : Type} [Arena A] [LawfulArena A] {h h' : Heap A} {idx idx' : Index}
  {request size : Nat} {L R : List Tile} {t u : Tile}

/-- The live blocks but the one at `p`. -/
def others (row : List Tile) (p : Nat) : List Entry := (live row).filter fun f => f.bp != p

theorem mem_others {p : Nat} : e ∈ others row p ↔ e ∈ live row ∧ e.bp ≠ p := by simp [others]

/-- What a successful reallocation has done, and that all else is as it was. -/
structure Resized (h h' : Heap A) (row row' : List Tile) (e e' : Entry) (request : Nat) : Prop where
  later : Later h h'
  swapped : Swapped e e' row row'
  room : request + 8 ≤ e'.size
  kept : Kept h.firstBlock (others row e.bp) h.store.memory h'.store.memory
  copied : ∀ i, i < min (e.size - 8) request →
  h'.store.memory.byte (e'.bp + i) = h.store.memory.byte (e.bp + i)

/-- In place, it is enough to say what happens to bytes that are guarded before and after. -/
theorem resized_in_place (hl : Laid h row idx) (hlater : Later h h') {hs hs' : List Entry}
    (hold : held row = hs ++ e :: hs') (hnew : held row' = hs ++ e' :: hs') (hbp : e'.bp = e.bp)
    (hpos : e.size ≠ 0) (hroom : request + 8 ≤ e'.size)
    (hkept : ∀ x, Guarded h.firstBlock (held row) x → Guarded h.firstBlock (held row') x →
      h'.store.memory.byte x = h.store.memory.byte x) :
    Resized h h' row row' e e' request := by
  have hswapped := hl.tiled.swapped hold hnew hbp hpos (by omega)
  refine ⟨hlater, hswapped, hroom, fun x hx => hkept x ?_ ?_, ?_⟩
  · exact hx.mono fun f hf => (mem_live.mp (mem_others.mp hf).1).1
  · refine hx.mono fun f hf =>
      (mem_live.mp ((hswapped.mem f).mpr (.inr ⟨(mem_others.mp hf).1, ?_⟩))).1
    exact fun he => (mem_others.mp hf).2 (congrArg Entry.bp he)
  · intro i hi
    rw [hbp]
    refine hkept _ (.inr ⟨e, by rw [hold]; simp, Nat.le_add_right _ _, by omega⟩)
      (.inr ⟨e', by rw [hnew]; simp, by omega, by omega⟩)

/-- The block is cut. -/
theorem shrink_laid (hl : Laid h (L ++ t :: u :: R) idx) (ha : t.tag.alloc = true)
    (h8 : size % 8 = 0) (h32 : 32 ≤ size) (hle : size ≤ t.tag.size) (hroom : request + 8 ≤ size) :
    ∃ s' row' idx', Store.split h.bounds t.bp size h.store = .ok () s' ∧
      Laid { h with store := s' } row' idx' ∧
      Resized h { h with store := s' } (L ++ t :: u :: R) row' t.entry
        ⟨t.bp, allotted size t.tag.size⟩ request := by
  obtain ⟨s', row', idx', hrun, hcarved, hsound, hkept⟩ := hl.sound.shrink_spec ha h8 h32 hle
  have hpos := le_allotted hle
  have hlater : Later h { h with store := s' } := ⟨rfl, rfl, rfl, Nat.le_refl _⟩
  refine ⟨s', row', idx', hrun, hl.next hlater hl.sane hsound fun x hx => hkept x (.inl hx), ?_⟩
  refine resized_in_place hl hlater (by rw [held_append, held_cons_alloc ha]) hcarved.held_eq rfl ?_
    (Nat.le_trans hroom hpos)
    fun x _ hx => hkept x hx
  show t.tag.size ≠ 0
  omega

/-- The block takes in the free block behind it, or there is not enough of that. -/
theorem growInPlace_laid (hl : Laid h (L ++ t :: u :: R) idx) (ha : t.tag.alloc = true)
    (h8 : size % 8 = 0) (h32 : 32 ≤ size) (hroom : request + 8 ≤ size) :
    Store.growInPlace h.bounds t.bp size h.store = .ok false h.store ∨
    ∃ s' row' idx' total, size ≤ total ∧ Store.growInPlace h.bounds t.bp size h.store =
      .ok true s' ∧ Laid { h with store := s' } row' idx' ∧
      Resized h { h with store := s' } (L ++ t :: u :: R) row' t.entry
        ⟨t.bp, allotted size total⟩ request := by
  have h32t : 32 ≤ t.tag.size := by
    obtain ⟨⟨-, -, -, h32, -⟩, -⟩ := hl.tiled.row.spans_one
    exact h32
  rcases hl.sound.growInPlace_spec ha h8 h32 with
    ⟨hrun, -⟩ | ⟨v, R', s', row', idx', rfl, hu, hle, hrun, hcarved, hsound, hkept⟩
  · exact .inl hrun
  have hpos := le_allotted hle
  have hlater : Later h { h with store := s' } := ⟨rfl, rfl, rfl, Nat.le_refl _⟩
  refine .inr ⟨s', row', idx', t.tag.size + u.tag.size, hle, hrun, ?_, ?_⟩
  · exact hl.next hlater hl.sane hsound fun x hx => hkept x (.inl hx) (.inl hx)
  · refine resized_in_place hl hlater ?_ hcarved.held_eq rfl ?_ (Nat.le_trans hroom hpos) hkept
    · rw [held_append, held_cons_alloc ha, held_cons_free hu]
    · show t.tag.size ≠ 0
      omega

/-- A new block is allocated and the block `e` is freed: the new one stands for it. -/
theorem Allocated.instead {h₁ h₂ : Heap A} {row₁ : List Tile}
    (ha : Allocated h h₁ row row₁ request e') (hl : Laid h row idx) (he : e ∈ live row)
    (hr : Released h₁ h₂ row₁ row' e.bp) :
    Later h h₂ ∧ Swapped e e' row row' ∧
    Kept h.firstBlock (others row e.bp) h.store.memory h₂.store.memory := by
  have hlive : ∀ f, f ∈ live row' ↔ f ∈ live row₁ ∧ f.bp ≠ e.bp := by
    intro f
    rw [live_without hr.held, List.mem_filter, bne_iff_ne]
  refine ⟨ha.later.trans hr.later, ⟨?_, fun f hf _ => ha.gained.fresh f hf⟩, ?_⟩
  · intro f
    rw [hlive, ha.gained.mem]
    constructor
    · rintro ⟨rfl | hf, hf'⟩
      · exact .inl rfl
      · exact .inr ⟨hf, fun heq => hf' (congrArg Entry.bp heq)⟩
    · rintro (rfl | ⟨hf, hf'⟩)
      · exact ⟨.inl rfl, (ha.gained.fresh e he).symm⟩
      · exact ⟨.inr hf, fun heq => hf' (hl.tiled.live_inj hf he heq)⟩
  · intro x hx
    have hx₁ : Guarded h.firstBlock (live row') x := hx.mono fun f hf => by
      obtain ⟨hf, hf'⟩ := mem_others.mp hf
      exact (hlive f).mpr ⟨(ha.gained.mem f).mpr (.inr hf), hf'⟩
    rw [hr.kept x (ha.later.firstBlock.symm ▸ hx₁)]
    exact ha.kept x (hx.mono fun f hf => (mem_others.mp hf).1)

/-- There is no new block; or there is one, which the block's bytes are copied to, and
    then the block is freed. -/
theorem move_cases (hl : Laid h row idx) (he : e ∈ live row) (request : Nat) :
    (∃ err h', move e.bp e.size request h = .error (.refused err) h' ∧ Same h h') ∨
    ∃ e' h₁ m s' row₁ idx₁, allocateBlock request h = .ok e'.bp h₁ ∧ Laid h₁ row₁ idx₁ ∧
      Allocated h h₁ row row₁ request e' ∧
      m = h₁.store.memory.copy e.bp e'.bp (min (e.size - wordSize) request) ∧
      Laid (h₁.withMemory m) row₁ idx₁ ∧
      Allocated h (h₁.withMemory m) row row₁ request e' ∧
      Store.free (h₁.withMemory m).bounds e.bp (h₁.withMemory m).store = .ok () s' ∧
      move e.bp e.size request h = .ok e'.bp { h₁.withMemory m with store := s' } := by
  rcases allocateBlock_spec hl request with
    ⟨err, h', hrun, hsame⟩ | ⟨e', h₁, row₁, idx₁, hrun, hl₁, ha⟩
  · exact .inl ⟨err, h', by simp only [move, HeapM.bind_apply, hrun], hsame⟩
  have hroom := ha.room
  obtain ⟨m, hm⟩ : ∃ m, m = h₁.store.memory.copy e.bp e'.bp (min (e.size - wordSize) request) :=
    ⟨_, rfl⟩
  -- the copy goes to the new payload only, so the old block is still live and can be freed
  obtain ⟨hl₂, ha₂⟩ := ha.withMemory hl₁ (m := m) fun x hx => by
    rw [hm, Memory.byte_copy, if_neg fun hin => hx ⟨hin.1, by omega⟩]
  obtain ⟨s', row', idx', hfree, -⟩ := free_laid hl₂ ((ha₂.gained.mem e).mpr (.inr he))
  refine .inr ⟨e', h₁, m, s', row₁, idx₁, hrun, hl₁, ha, hm, hl₂, ha₂, hfree, ?_⟩
  have hfree : Store.free h₁.bounds e.bp (h₁.withMemory m).store = .ok () s' := hfree
  simp only [move, HeapM.bind_apply, hrun, hl₁.region, modifyMemory_apply, ← hm,
    HeapM.lift_store, hfree]
  rfl

theorem move_spec (hl : Laid h row idx) (he : e ∈ live row) (request : Nat) :
    (∃ err h', move e.bp e.size request h = .error (.refused err) h' ∧ Same h h') ∨
    ∃ e' h' row' idx', move e.bp e.size request h = .ok e'.bp h' ∧ Laid h' row' idx' ∧
      Resized h h' row row' e e' request := by
  rcases move_cases hl he request with
    hrefused | ⟨e', h₁, m, s', row₁, idx₁, -, hl₁, ha, hm, hl₂, ha₂, hfree, hrun⟩
  · exact .inl hrefused
  have hroom := ha.room
  obtain ⟨s'', row', idx', hfree', hl', hreleased⟩ :=
    free_laid hl₂ ((ha₂.gained.mem e).mpr (.inr he))
  cases hfree.symm.trans hfree'
  obtain ⟨hlater, hswapped, hkept⟩ := ha₂.instead hl he hreleased
  refine .inr ⟨e', _, row', idx', hrun, hl', hlater, hswapped, hroom, hkept, ?_⟩
  intro i hi
  have hguard : Guarded (h₁.withMemory m).firstBlock (live row') (e'.bp + i) :=
    .inr ⟨e', (hswapped.mem e').mpr (.inl rfl), Nat.le_add_right _ _, by omega⟩
  rw [hreleased.kept _ hguard]
  show m.byte _ = _
  rw [hm, Memory.byte_copy, if_pos ⟨Nat.le_add_right _ _, Nat.add_lt_add_left hi _⟩,
    Nat.add_sub_cancel_left]
  exact ha.kept _ (.inr ⟨e, he, Nat.le_add_right _ _, by omega⟩)

/-! ## The request -/

/-- The three ways to find room for `size` bytes: the block has them, grows by them, or moves. -/
def fit (r : Region) (addr size oldSize request : Nat) : HeapM A Nat := do
  if size ≤ oldSize then do
    Store.split r addr size
    pure addr
  else do
    let grown ← Store.growInPlace r addr size
    if grown then pure addr else move addr oldSize request

section Ways

variable {r : Region} {addr size oldSize : Nat} {s' : Store}

omit [LawfulArena A]

theorem fit_cut (hle : size ≤ oldSize) (hrun : Store.split r addr size h.store = .ok () s')
    (request : Nat) :
    fit r addr size oldSize request h = .ok addr { h with store := s' } := by
  rw [fit, if_pos hle]
  simp only [HeapM.bind_apply, HeapM.lift_store, hrun, HeapM.pure_apply]

theorem fit_grown (hlt : ¬ size ≤ oldSize)
    (hrun : Store.growInPlace r addr size h.store = .ok true s') (request : Nat) :
    fit r addr size oldSize request h = .ok addr { h with store := s' } := by
  rw [fit, if_neg hlt]
  simp only [HeapM.bind_apply, HeapM.lift_store, hrun, if_true, HeapM.pure_apply]

theorem fit_moved (hlt : ¬ size ≤ oldSize)
    (hrun : Store.growInPlace r addr size h.store = .ok false h.store) (request : Nat) :
    fit r addr size oldSize request h = move addr oldSize request h := by
  rw [fit, if_neg hlt]
  simp only [HeapM.bind_apply, HeapM.lift_store, hrun, Bool.false_eq_true, if_false]

end Ways

theorem fit_spec (hl : Laid h row idx) (he : e ∈ live row) (h8 : size % 8 = 0) (h32 : 32 ≤ size)
    (hroom : request + 8 ≤ size) :
    (∃ err h', fit h.bounds e.bp size e.size request h = .error (.refused err) h' ∧ Same h h') ∨
    ∃ e' h' row' idx', fit h.bounds e.bp size e.size request h = .ok e'.bp h' ∧ Laid h' row' idx' ∧
      Resized h h' row row' e e' request := by
  obtain ⟨t, ht, ha, rfl, h32t⟩ := hl.tiled.mem_live.mp he
  obtain ⟨L, u, R, rfl⟩ := hl.tiled.row.split ht h32t
  by_cases hle : size ≤ t.tag.size
  · obtain ⟨s', row', idx', hrun, hl', hresized⟩ := shrink_laid hl ha h8 h32 hle hroom
    exact .inr ⟨⟨t.bp, allotted size t.tag.size⟩, _, row', idx', fit_cut hle hrun request,
      hl', hresized⟩
  rcases growInPlace_laid hl ha h8 h32 hroom with
    hrun | ⟨s', row', idx', total, -, hrun, hl', hresized⟩
  · have hmove := fit_moved hle hrun request
    simp only [Tile.entry] at hmove ⊢
    rw [hmove]
    exact move_spec hl he request
  · exact .inr ⟨⟨t.bp, allotted size total⟩, _, row', idx', fit_grown hle hrun request,
      hl', hresized⟩

omit [LawfulArena A] in
theorem tryReallocate_zero (addr : Nat) :
    (tryReallocate addr 0 : HeapM A (Option Nat)) = (tryRelease addr >>= fun _ => pure none) := rfl

omit [LawfulArena A] in
/-- Neither null nor no bytes. -/
theorem tryReallocate_fit {addr : Nat} (hn : request ≠ 0) (h0 : addr ≠ 0) :
    tryReallocate addr request = (do
    checkAddress addr
    let size ← match blockSize request with
      | .ok size => pure size
      | .error e => refuse e
    let r ← region
    let oldSize ← r.size addr
    let new ← fit r addr size oldSize request
    log (.reallocated addr new request (new == addr))
    checkAfter .reallocate
    return some new : HeapM A (Option Nat)) := by
  unfold tryReallocate fit
  rw [if_neg hn, if_neg h0]
  cases blockSize request <;> simp only [HeapM.ite_bind, bind_assoc, pure_bind]

theorem tryReallocate_null (hl : Laid h row idx) (hn : request ≠ 0) :
    (∃ err h', tryReallocate 0 request h = .error (.refused err) h' ∧ Same h h') ∨
    ∃ e h' row' idx', Answers (tryReallocate 0 request) h (some e.bp) h' ∧ Laid h' row' idx' ∧
      Allocated h h' row row' request e := by
  rcases allocateBlock_spec hl request with
    ⟨err, h', hrun, hsame⟩ | ⟨e, h', row', idx', hrun, hl', ha⟩
  · exact .inl ⟨err, h',
      by simp only [tryReallocate, hn, if_false, if_true, HeapM.bind_apply, hrun], hsame⟩
  · refine .inr ⟨e, h', row', idx', .checked hl' .reallocate ?_, hl', ha⟩
    simp only [tryReallocate, hn, if_false, if_true, HeapM.bind_apply, hrun]

omit [LawfulArena A] in
theorem tryReallocate_rejected {addr : Nat} {err : HeapError}
    (hr : checkAddress addr h = .error (.refused err) h) (h0 : addr ≠ 0) (hn : request ≠ 0) :
    tryReallocate addr request h = .error (.refused err) h := by
  simp only [tryReallocate, hn, h0, if_false, HeapM.bind_apply, hr]

/-- A live block's request that can be counted comes down to finding room for it. -/
theorem tryReallocate_run (hl : Laid h row idx) (he : e ∈ live row) (hn : request ≠ 0)
    (hsize : blockSize request = .ok size) :
    tryReallocate e.bp request h = (do
      let new ← fit h.bounds e.bp size e.size request
      log (.reallocated e.bp new request (new == e.bp))
      checkAfter .reallocate
      return some new : HeapM A (Option Nat)) h := by
  have h0 := live_ne_zero hl he
  have hcheck := checkAddress_live hl he
  obtain ⟨t, ht, -, rfl, -⟩ := hl.tiled.mem_live.mp he
  simp only [Tile.entry] at h0 hcheck ⊢
  simp only [tryReallocate_fit hn h0, HeapM.bind_apply, hcheck, hsize, HeapM.pure_apply, hl.region,
    HeapM.lift_reading, hl.tiled.size ht]

/-- The heap where there is room, with the event that tells of it. -/
theorem tryReallocate_answers (hl : Laid h row idx) (he : e ∈ live row) (hn : request ≠ 0)
    (hsize : blockSize request = .ok size) {new : Nat}
    (hfit : fit h.bounds e.bp size e.size request h = .ok new h') (hl' : Laid h' row' idx') :
    Answers (tryReallocate e.bp request) h (some new)
      (h'.told (.reallocated e.bp new request (new == e.bp))) := by
  refine .checked (hl'.same (same_told h' _)) .reallocate ?_
  rw [tryReallocate_run hl he hn hsize, HeapM.bind_apply, hfit]
  simp only [HeapM.bind_apply, log_told]

theorem tryReallocate_live (hl : Laid h row idx) (he : e ∈ live row) (hn : request ≠ 0) :
    (∃ err h', tryReallocate e.bp request h = .error (.refused err) h' ∧ Same h h') ∨
    ∃ e' h' row' idx', Answers (tryReallocate e.bp request) h (some e'.bp) h' ∧ Laid h' row' idx' ∧
      Resized h h' row row' e e' request := by
  rcases blockSize_cases request with hblock | ⟨size, hblock, h8, h32, hroom, -⟩
  · refine .inl ⟨.requestTooLarge request, h, ?_, Same.refl h⟩
    simp only [tryReallocate, hn, live_ne_zero hl he, if_false, HeapM.bind_apply,
      checkAddress_live hl he, hblock, refuse_apply]
  rcases fit_spec hl he h8 h32 hroom with
    ⟨err, h', hfit, hsame⟩ | ⟨e', h', row', idx', hfit, hl', hresized⟩
  · exact .inl ⟨err, h', by rw [tryReallocate_run hl he hn hblock, HeapM.bind_apply, hfit], hsame⟩
  · have hsame := same_told h' (.reallocated e.bp e'.bp request (e'.bp == e.bp))
    refine .inr ⟨e', _, row', idx', tryReallocate_answers hl he hn hblock hfit hl',
      hl'.same hsame, ?_⟩
    exact ⟨hresized.later.trans hsame.later, hresized.swapped, hresized.room,
      hsame.store ▸ hresized.kept, hsame.store ▸ hresized.copied⟩

/-- What is known of a request that has an answer. -/
theorem tryReallocate_inv (hl : Laid h row idx) (he : e ∈ live row) (hn : request ≠ 0)
    {a : Option Nat} (hrun : tryReallocate e.bp request h = .ok a h') :
    ∃ size new g, blockSize request = .ok size ∧
      fit h.bounds e.bp size e.size request h = .ok new g ∧ a = some new ∧
      h' = g.told (.reallocated e.bp new request (new == e.bp)) := by
  rcases blockSize_cases request with hblock | ⟨size, hblock, h8, h32, hroom, -⟩
  · simp only [tryReallocate, hn, live_ne_zero hl he, if_false, HeapM.bind_apply,
      checkAddress_live hl he, hblock, refuse_apply] at hrun
    cases hrun
  rcases fit_spec hl he h8 h32 hroom with ⟨err, g, hfit, -⟩ | ⟨e', g, row', idx', hfit, hl', -⟩
  · rw [tryReallocate_run hl he hn hblock, HeapM.bind_apply, hfit] at hrun
    cases hrun
  · obtain ⟨ha, hh, -⟩ := (tryReallocate_answers hl he hn hblock hfit hl').inv hrun
    exact ⟨size, e'.bp, g, hblock, hfit, ha, hh⟩

omit [LawfulArena A] in
/-- The plain operation answers as the other does. -/
theorem Answers.reallocate {addr : Nat} {a : Option Nat}
    (hx : Answers (tryReallocate addr request) h a h') :
    Answers (reallocate addr request) h a h' := hx.attempt.bind rfl

/-- Where the other refuses, the plain operation answers with nothing. -/
theorem reallocate_refused {addr : Nat} {err : HeapError}
    (hx : tryReallocate addr request h = .error (.refused err) h') (hs : Same h h') :
    ∃ h'', reallocate addr request h = .ok none h'' ∧ Same h h'' := by
  have hx := attempt_refused hx
  cases err with
  | invalidAddress addr fault =>
    exact ⟨h'.told (.ignored .reallocate addr fault),
      by simp only [Heap.reallocate, HeapM.bind_apply, hx, log_told]; rfl, hs.trans (same_told _ _)⟩
  | _ => exact ⟨h', by simp only [Heap.reallocate, HeapM.bind_apply, hx]; rfl, hs⟩

end Heap

end BoundaryTag
