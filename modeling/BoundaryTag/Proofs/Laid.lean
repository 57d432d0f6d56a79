/-
  BoundaryTag.Proofs.Laid — a heap between two calls: its prologue, its blocks and its free lists.

  `Laid` is the invariant of a heap. Here is what the steps that change no block make of it: looking
  at the region, judging an address, checking the heap, emitting events, and writing into payloads.

  Proved: in a laid heap an address is judged without a fault (`checkAddress_cases`), a live one
  is accepted (`checkAddress_live`), a check finds nothing (`checkAfter_ok`), and what is
  written into payloads of allocated blocks leaves the heap laid (`Laid.withMemory`).
-/

import BoundaryTag.Arena.Lawful
import BoundaryTag.Heap.Lemmas
import BoundaryTag.Heap.Operations
import BoundaryTag.Proofs.Accepted

namespace BoundaryTag

/-- The allocated blocks of a row, without its epilogue. -/
def live (row : List Tile) : List Entry := (held row).filter fun e => e.size != 0

/-- A byte of the block's payload. -/
def Entry.Payload (e : Entry) (x : Nat) : Prop := e.bp ≤ x ∧ x + 8 < e.bp + e.size

section Live

variable {r : Region} {first x : Nat} {m : Memory} {row : List Tile} {e f : Entry}

theorem mem_live : e ∈ live row ↔ e ∈ held row ∧ e.size ≠ 0 := by simp [live]

theorem Tiled.mem_live (h : Tiled r m first row) : e ∈ live row ↔ ∃ t ∈ row, t.tag.alloc = true ∧
    t.entry = e ∧ 32 ≤ t.tag.size := by
  rw [BoundaryTag.mem_live, mem_held]
  constructor
  · rintro ⟨⟨t, ht, ha, rfl⟩, h0⟩
    rcases (h.row.bounds ht).2.2.2 with h32 | ⟨-, h0', -⟩
    · exact ⟨t, ht, ha, rfl, h32⟩
    · exact absurd h0' h0
  · rintro ⟨t, ht, ha, rfl, h32⟩
    exact ⟨⟨t, ht, ha, rfl⟩, by simp only [Tile.entry]; omega⟩

theorem Tiled.live_inj (h : Tiled r m first row) (he : e ∈ live row) (hf : f ∈ live row)
    (hbp : e.bp = f.bp) : e = f := by
  obtain ⟨t, ht, -, rfl, -⟩ := h.mem_live.mp he
  obtain ⟨u, hu, -, rfl, -⟩ := h.mem_live.mp hf
  rw [h.row.eq_of_bp_eq ht hu hbp]

theorem Tiled.live_apart (h : Tiled r m first row) (he : e ∈ live row) (hf : f ∈ live row) :
    e = f ∨ e.Apart f := by
  obtain ⟨t, ht, -, rfl, -⟩ := h.mem_live.mp he
  obtain ⟨u, hu, -, rfl, -⟩ := h.mem_live.mp hf
  rcases h.row.apart ht hu with rfl | ⟨h1, -⟩ | ⟨h1, -⟩
  · exact .inl rfl
  · exact .inr (.inl h1)
  · exact .inr (.inr h1)

/-- The epilogue has no payload to guard. -/
theorem guarded_live : Guarded first (held row) x ↔ Guarded first (live row) x := by
  constructor
  · rintro (h | ⟨e, he, h⟩)
    · exact .inl h
    · exact .inr ⟨e, BoundaryTag.mem_live.mpr ⟨he, by omega⟩, h⟩
  · exact fun h => h.mono fun e he => (BoundaryTag.mem_live.mp he).1

end Live

namespace Heap

variable {A : Type} [Arena A]

/-- The region that the heap's arena has handed out. -/
def bounds (h : Heap A) : Region := ⟨Arena.low h.arena, Arena.high h.arena⟩

/-- The heap with one more event, if it keeps events. -/
def told (h : Heap A) (e : Event) : Heap A :=
  if h.config.logEvents then { h with trace := h.trace.push e } else h

variable [LawfulArena A]

/-- A heap between two calls, with the row of its blocks and the index of its free ones. -/
structure Laid (h : Heap A) (row : List Tile) (idx : Index) : Prop where
  sound : Sound h.bounds h.firstBlock h.store row idx
  sane : LawfulArena.Sane h.arena
  low_aligned : Arena.low h.arena % 8 = 0
  header : h.store.memory.word (h.prologue - 8) = Tag.encode ⟨16, true, true⟩
  footer : h.store.memory.word h.prologue = Tag.encode ⟨16, true, true⟩

/-- Nothing changed but the events and what the arena keeps for itself. -/
structure Same (h h' : Heap A) : Prop where
  store : h'.store = h.store
  prologue : h'.prologue = h.prologue
  config : h'.config = h.config
  bounds : h'.bounds = h.bounds
  sane : LawfulArena.Sane h.arena → LawfulArena.Sane h'.arena

variable {h h' h'' : Heap A} {row row' : List Tile} {idx idx' : Index} {e : Entry}

theorem Same.refl (h : Heap A) : Same h h := ⟨rfl, rfl, rfl, rfl, id⟩

theorem Same.trans (h₁ : Same h h') (h₂ : Same h' h'') : Same h h'' :=
  ⟨h₂.store.trans h₁.store, h₂.prologue.trans h₁.prologue, h₂.config.trans h₁.config,
    h₂.bounds.trans h₁.bounds,
    fun hs => h₂.sane (h₁.sane hs)⟩

theorem same_told (h : Heap A) (e : Event) : Same h (h.told e) := by
  unfold told
  split <;> exact ⟨rfl, rfl, rfl, rfl, id⟩

omit [Arena A] [LawfulArena A] in
theorem log_told (e : Event) (h : Heap A) : log e h = .ok () (h.told e) := log_apply e h

/-- The same heap later on. -/
structure Later (h h' : Heap A) : Prop where
  prologue : h'.prologue = h.prologue
  config : h'.config = h.config
  low : h'.bounds.low = h.bounds.low
  high_le : h.bounds.high ≤ h'.bounds.high

omit [LawfulArena A] in
theorem Later.refl (h : Heap A) : Later h h := ⟨rfl, rfl, rfl, Nat.le_refl _⟩

omit [LawfulArena A] in
theorem Later.trans (h₁ : Later h h') (h₂ : Later h' h'') : Later h h'' :=
  ⟨h₂.prologue.trans h₁.prologue, h₂.config.trans h₁.config, h₂.low.trans h₁.low,
    Nat.le_trans h₁.high_le h₂.high_le⟩

omit [LawfulArena A] in
theorem Later.firstBlock (hl : Later h h') : h'.firstBlock = h.firstBlock := by
  rw [Heap.firstBlock, Heap.firstBlock, hl.prologue]

theorem Same.later (hs : Same h h') : Later h h' :=
  ⟨hs.prologue, hs.config, congrArg Region.low hs.bounds,
    Nat.le_of_eq (congrArg Region.high hs.bounds).symm⟩

namespace Laid

theorem tiled (hl : Laid h row idx) : Tiled h.bounds h.store.memory h.firstBlock row :=
  hl.sound.tiled

theorem same (hl : Laid h row idx) (hs : Same h h') : Laid h' row idx := by
  have hfirst : h'.firstBlock = h.firstBlock := by rw [firstBlock, firstBlock, hs.prologue]
  have hlow : Arena.low h'.arena = Arena.low h.arena := congrArg Region.low hs.bounds
  exact ⟨by rw [hs.bounds, hfirst, hs.store]; exact hl.sound, hs.sane hl.sane,
    by rw [hlow]; exact hl.low_aligned,
    by rw [hs.store, hs.prologue]; exact hl.header, by rw [hs.store, hs.prologue]; exact hl.footer⟩

/-- A sound store over the untouched prologue. -/
theorem next (hl : Laid h row idx) (hlater : Later h h') (hsane : LawfulArena.Sane h'.arena)
    (hsound : Sound h'.bounds h.firstBlock h'.store row' idx')
    (hkept : ∀ x, x + 8 < h.firstBlock → h'.store.memory.byte x = h.store.memory.byte x) :
    Laid h' row' idx' := by
  have hlow := hl.tiled.low_le
  have hfirst : h.firstBlock = h.prologue + 16 := rfl
  refine ⟨hlater.firstBlock.symm ▸ hsound, hsane, ?_, ?_, ?_⟩
  · have : Arena.low h'.arena = Arena.low h.arena := hlater.low
    rw [this]
    exact hl.low_aligned
  · rw [hlater.prologue, ← hl.header]
    exact Memory.word_congr fun x h1 h2 => hkept x (by omega)
  · rw [hlater.prologue, ← hl.footer]
    exact Memory.word_congr fun x h1 h2 => hkept x (by omega)

theorem region (hl : Laid h row idx) : region h = .ok h.bounds h := by
  have h1 := hl.tiled.low_le
  have h2 := hl.tiled.row.le
  simp only [bounds] at h1 h2
  exact region_eq (by omega) hl.low_aligned

end Laid

/-! ## Judging an address -/

/-- The header that an address would have if it were a block's. -/
def tagAt (h : Heap A) (addr : Nat) : Tag := Tag.decode (h.store.memory.word (addr - 8))

/-- The header of a live block has its size. -/
theorem Laid.tagAt_size (hl : Laid h row idx) (he : e ∈ live row) :
    (h.tagAt e.bp).size = e.size := by
  obtain ⟨t, ht, -, rfl, -⟩ := hl.tiled.mem_live.mp he
  rw [tagAt, show t.entry.bp = t.bp from rfl, (hl.tiled.written t ht).header,
    Tag.decode_encode (hl.tiled.fits ht).whole]
  rfl

theorem checkAddress_eq (hl : Laid h row idx) (addr : Nat) : checkAddress addr h =
    if addr < h.firstBlock ∨ h.bounds.high ≤ addr then
      .error (.refused (.invalidAddress addr .outOfBounds)) h
    else if addr % 8 ≠ 0 then .error (.refused (.invalidAddress addr .misaligned)) h
    else if (h.tagAt addr).alloc = false ∨ (h.tagAt addr).size < 32 ∨
    h.bounds.high < addr + ((h.tagAt addr).size - 8) then
      .error (.refused (.invalidAddress addr .notAllocated)) h
    else .ok () h := by
  have hlow := hl.tiled.low_le
  have hhigh := hl.tiled.high_lt
  have h8 := hl.tiled.row.high_aligned hl.tiled.aligned
  have hlimit : wordLimit % 8 = 0 := rfl
  simp only [checkAddress, HeapM.bind_apply, hl.region, HeapM.get_apply]
  by_cases hin : addr < h.firstBlock ∨ h.bounds.high ≤ addr
  · simp [hin, HeapM.bind_apply, refuse_apply]
  · have halign : isAligned addr = .ok (addr % 8 == 0) :=
      isAligned_eq (by simp only [wordSize]; omega)
    have htag : h.bounds.tag addr h.store.memory = .ok (h.tagAt addr) :=
      Region.tag_eq (by omega) (by omega)
    simp only [hin, if_false, Bool.or_eq_true, decide_eq_true_eq, HeapM.bind_apply,
      HeapM.lift_except, halign]
    by_cases haddr : addr % 8 = 0
    · simp only [haddr, beq_self_eq_true, Bool.not_true, Bool.false_eq_true, if_false,
        HeapM.bind_apply, HeapM.lift_reading, htag, ne_eq, not_true_eq_false, Bool.not_eq_true',
        minBlock, wordSize, or_assoc]
      split <;> rfl
    · simp [haddr, HeapM.bind_apply, refuse_apply]

/-- An address is accepted or refused, and the heap stays as it is. -/
theorem checkAddress_cases (hl : Laid h row idx) (addr : Nat) :
    checkAddress addr h = .ok () h ∨
    ∃ fault, checkAddress addr h = .error (.refused (.invalidAddress addr fault)) h := by
  rw [checkAddress_eq hl]
  split
  · exact .inr ⟨_, rfl⟩
  split
  · exact .inr ⟨_, rfl⟩
  split
  · exact .inr ⟨_, rfl⟩
  · exact .inl rfl

/-- The address of an allocated block is accepted. -/
theorem checkAddress_live (hl : Laid h row idx) {e : Entry} (he : e ∈ live row) :
    checkAddress e.bp h = .ok () h := by
  obtain ⟨t, ht, ha, rfl, h32⟩ := hl.tiled.mem_live.mp he
  obtain ⟨h1, h2, -⟩ := hl.tiled.row.bounds ht
  have htag : h.tagAt t.bp = t.tag := by
    rw [tagAt, (hl.tiled.written t ht).header, Tag.decode_encode (hl.tiled.fits ht).whole]
  have h8 := hl.tiled.row.aligned hl.tiled.aligned ht
  simp only [Tile.stop] at h2
  show checkAddress t.bp h = _
  rw [checkAddress_eq hl, if_neg (by omega), if_neg (by omega), htag,
    if_neg (by rw [ha]; simp; omega)]

/-- The usable size of an allocated block is its payload. -/
theorem usableSize_live (hl : Laid h row idx) {e : Entry} (he : e ∈ live row) :
    usableSize e.bp h = .ok (some (e.size - 8)) h := by
  have hc := checkAddress_live hl he
  obtain ⟨t, ht, ha, rfl, h32⟩ := hl.tiled.mem_live.mp he
  simp only [usableSize, HeapM.bind_apply, attempt_ok hc, hl.region, HeapM.lift_reading]
  simp only [Tile.entry, hl.tiled.size ht]
  rfl

/-! ## Checking -/

theorem validate_laid (hl : Laid h row idx) (hhigh : h.bounds.high + 8 < wordLimit) :
    validate h = .ok (.ok (Audit.tallied { arenaBytes := h.bounds.span } row)) h := by
  have hrun := hl.sound.accepted rfl ⟨hl.header, hl.footer⟩ hhigh
  unfold Checking.Passes at hrun
  simp only [validate, HeapM.bind_apply, HeapM.get_apply, hl.region, HeapM.lift_reading, hrun]

theorem validate_overflow (hl : Laid h row idx) (hhigh : wordLimit ≤ h.bounds.high + 8) :
    validate h = .error (.fault .overflow) h := by
  have hrun := hl.sound.overflows rfl ⟨hl.header, hl.footer⟩ hhigh
  simp only [validate, HeapM.bind_apply, HeapM.get_apply, hl.region, HeapM.lift_reading, hrun]

/-- The high end can be checked, if checks are made at all. -/
def Checkable (h : Heap A) : Prop := h.config.checkEachOp = true → h.bounds.high + 8 < wordLimit

omit [LawfulArena A] in
theorem not_checkable_iff :
    ¬ h.Checkable ↔ h.config.checkEachOp = true ∧ wordLimit ≤ h.bounds.high + 8 :=
  Classical.not_imp.trans (and_congr_right fun _ => Nat.not_lt)

/-- A heap that cannot be checked has taken all but the last word of the address space. -/
theorem Laid.not_checkable (hl : Laid h row idx) (hc : ¬ h.Checkable) :
    h.config.checkEachOp = true ∧ h.bounds.high + wordSize = wordLimit := by
  obtain ⟨hchecks, hend⟩ := not_checkable_iff.mp hc
  have h8 := hl.tiled.row.high_aligned hl.tiled.aligned
  have hlt := hl.tiled.high_lt
  refine ⟨hchecks, ?_⟩
  simp only [wordSize, wordLimit] at *
  omega

theorem checkAfter_ok (hl : Laid h row idx) (hc : h.Checkable) (op : Operation) :
    checkAfter op h = .ok () h := by
  simp only [checkAfter, HeapM.bind_apply, HeapM.get_apply]
  cases hcheck : h.config.checkEachOp with
  | false => rfl
  | true => simp only [if_true, HeapM.bind_apply, validate_laid hl (hc hcheck)]; rfl

theorem checkAfter_overflow (hl : Laid h row idx) (hc : ¬ h.Checkable) (op : Operation) :
    checkAfter op h = .error (.fault .overflow) h := by
  obtain ⟨hcheck, hhigh⟩ := not_checkable_iff.mp hc
  simp only [checkAfter, HeapM.bind_apply, HeapM.get_apply, hcheck, if_true,
    validate_overflow hl hhigh]

/-- A check that was passed leaves the heap as it is, and its high end could be checked. -/
theorem checkAfter_inv (hl : Laid h row idx) {op : Operation} (hrun : checkAfter op h = .ok () h') :
    h' = h ∧ h.Checkable := by
  by_cases hc : h.Checkable
  · rw [checkAfter_ok hl hc] at hrun
    injection hrun with _ hh
    exact ⟨hh.symm, hc⟩
  · rw [checkAfter_overflow hl hc] at hrun
    cases hrun

omit [LawfulArena A] in
theorem Later.checkable (hl : Later h h') (hb : h'.bounds = h.bounds) (hc : h.Checkable) :
    h'.Checkable := by
  intro hcheck
  rw [hb]
  exact hc (hl.config ▸ hcheck)

theorem Same.checkable (hs : Same h h') (hc : h.Checkable) : h'.Checkable :=
  hs.later.checkable hs.bounds hc

/-- The step answers `a` and ends in `h'`, unless a check of `h'` runs into the end of the
    address space, which stops it there. -/
structure Answers {α : Type} (x : HeapM A α) (h : Heap A) (a : α) (h' : Heap A) : Prop where
  run : h'.Checkable → x h = .ok a h'
  halt : ¬ h'.Checkable → x h = .error (.fault .overflow) h'

namespace Answers

variable {α β : Type} {x : HeapM A α} {f : α → HeapM A β} {a : α} {b : β}

omit [LawfulArena A] in
theorem inv {a' : α} (hx : Answers x h a h') (hrun : x h = .ok a' h'') :
    a' = a ∧ h'' = h' ∧ h'.Checkable := by
  by_cases hc : h'.Checkable
  · rw [hx.run hc] at hrun
    injection hrun with h1 h2
    exact ⟨h1.symm, h2.symm, hc⟩
  · rw [hx.halt hc] at hrun
    cases hrun

omit [LawfulArena A] in
theorem of_ok (hx : x h = .ok a h') (hc : h'.Checkable) : Answers x h a h' :=
  ⟨fun _ => hx, fun hn => absurd hc hn⟩

/-- A step that ends with a check. -/
theorem checked (hl : Laid h' row idx) (op : Operation)
    (hx : x h = (checkAfter op >>= fun _ => pure a) h') : Answers x h a h' := by
  rw [HeapM.bind_apply] at hx
  refine ⟨fun hc => ?_, fun hc => ?_⟩
  · rw [hx, checkAfter_ok hl hc]
    rfl
  · rw [hx, checkAfter_overflow hl hc]

omit [LawfulArena A] in
theorem attempt (hx : Answers x h a h') : Answers (attempt x) h (.ok a) h' := by
  refine ⟨fun hc => attempt_ok (hx.run hc), fun hc => ?_⟩
  rw [Heap.attempt, hx.halt hc]

omit [LawfulArena A] in
/-- What comes after the check changes nothing. -/
theorem bind (hx : Answers x h a h') (hf : f a h' = .ok b h') : Answers (x >>= f) h b h' := by
  refine ⟨fun hc => ?_, fun hc => ?_⟩
  · rw [HeapM.bind_apply, hx.run hc]
    exact hf
  · rw [HeapM.bind_apply, hx.halt hc]

end Answers

/-! ## Writing into payloads -/

/-- The heap with another memory. -/
def withMemory (h : Heap A) (m : Memory) : Heap A :=
  { h with store := { h.store with memory := m } }

omit [Arena A] [LawfulArena A] in
theorem modifyMemory_apply (f : Memory → Memory) (h : Heap A) :
    modifyMemory f h = .ok () (h.withMemory (f h.store.memory)) := rfl

/-- Bytes in no payload are as they were. -/
def Confined (row : List Tile) (m m' : Memory) : Prop := ∀ x, (∀ e ∈ live row, ¬ e.Payload x) →
    m'.byte x = m.byte x

theorem Laid.withMemory (hl : Laid h row idx) {m : Memory} (hm : Confined row h.store.memory m) :
    Laid (h.withMemory m) row idx := by
  have hguard : ∀ x, (¬ Guarded h.firstBlock (held row) x) ∨ x + 8 < h.firstBlock →
      m.byte x = h.store.memory.byte x := by
    intro x hx
    apply hm x
    intro e he hp
    obtain ⟨t, ht, -, rfl, -⟩ := hl.tiled.mem_live.mp he
    have h1 := (hl.tiled.row.bounds ht).1
    rcases hx with hx | hx
    · exact hx (.inr ⟨_, (mem_live.mp he).1, hp⟩)
    · have := hp.1
      simp only [Tile.entry] at this
      omega
  have htiled : Tiled h.bounds m h.firstBlock row :=
    hl.tiled.congr fun t ht y hmark => hguard y (.inl fun hg => hg.not_marks hl.tiled ht hmark)
  have hfiles : Files h.bounds ⟨m, h.store.buckets⟩ idx :=
    hl.sound.filed.files.congr fun c e he y h1 h2 => by
    obtain ⟨t, ht, hfree, rfl⟩ := mem_vacant.mp ((hl.sound.filed.covers c e).mp he).2
    have hroom := (hl.tiled.fits ht).room hfree
    refine hguard y (.inl ?_)
    intro hg
    have := hg.outside_free hl.tiled ht hfree
    simp only [Tile.entry, Tile.stop] at *
    omega
  exact hl.next ⟨rfl, rfl, rfl, Nat.le_refl _⟩ hl.sane
    ⟨⟨htiled, hfiles, hl.sound.filed.covers, List.Sublist.refl _⟩, hl.sound.spaced⟩
    fun x hx => hguard x (.inr hx)

/-- A block's payload is apart from what guards other live blocks. -/
theorem Laid.outside_payload (hl : Laid h row idx) {es : List Entry} {x : Nat} (he : e ∈ live row)
    (hes : ∀ f ∈ es, f ∈ live row ∧ f.bp ≠ e.bp) (hx : Guarded h.firstBlock es x) :
    ¬ e.Payload x := by
  intro hp
  have hle := hl.tiled.row.le_of_mem_held (mem_live.mp he).1
  obtain ⟨h1, h2⟩ := hp
  rcases hx with hx | ⟨f, hf, h3, h4⟩
  · omega
  · obtain ⟨hf, hne⟩ := hes f hf
    rcases hl.tiled.live_apart hf he with rfl | h5 | h5
    · exact hne rfl
    · omega
    · omega

/-- One live block's payload may be written over. -/
theorem Laid.confined (he : e ∈ live row) {m m' : Memory}
    (hm : ∀ x, ¬ Entry.Payload e x → m'.byte x = m.byte x) : Confined row m m' :=
  fun x hx => hm x (hx e he)

end Heap

end BoundaryTag
