/-
  BoundaryTag.Proofs.Slack — how much more a block has than was asked for.

  Wherever the room for a request was found, it is cut to the size that the request needs, unless
  what would be left over is too small to be a block. So a block has less than one least block to
  spare (`Snug`). Later calls give it back, give it a new size, or leave its size alone.

  To reallocate a block to what was last asked for is to cut it where nothing comes off. The
  cut writes the block's header with the word that is there already, and the flag in the
  next header is right already.

  Proved:
  - `World.Sound.step_snug`: a call that is answered with a block has cut it to what it asked for.
  - `Heap.tryReallocate_intact`: reallocating a block to a size that it is snug for changes no
    byte, no bucket and no bound.
  - `Run.snug`: so it is with every live block and what was last asked for at its address.
-/

import BoundaryTag.Proofs.Reuse
import BoundaryTag.Proofs.Unmistakable

namespace BoundaryTag

/-! ## Sizes -/

/-- The size is what the request needs, with less than a least block on top. -/
def Snug (request size : Nat) : Prop :=
  ∃ least, blockSize request = .ok least ∧ least ≤ size ∧ size < least + 32

theorem Snug.allotted {request size total : Nat} (hsize : blockSize request = .ok size)
    (hle : size ≤ total) :
    Snug request (allotted size total) := by
  refine ⟨size, hsize, le_allotted hle, ?_⟩
  unfold BoundaryTag.allotted
  split <;> omega

namespace Heap

variable {A : Type} [Arena A] [LawfulArena A] {h h' : Heap A} {row L R : List Tile} {idx : Index}
  {t u v : Tile} {e : Entry} {request size p : Nat} {log : Bool}

theorem Same.tagAt (hs : Same h h') (p : Nat) : h'.tagAt p = h.tagAt p := by
  rw [Heap.tagAt, Heap.tagAt, hs.store]

theorem take_snug (hl : Laid h (L ++ t :: v :: R) idx) (hfree : t.tag.alloc = false)
    (hsize : blockSize request = .ok size) (hle : size ≤ t.tag.size)
    (hrun : take request size t.bp log h = .ok p h') : Snug request (h'.tagAt p).size := by
  obtain ⟨h8, h32, -⟩ := blockSize_ok hsize
  obtain ⟨h₁, row₁, idx₁, htake, hl₁, -, -, -, hgained, -⟩ :=
    take_spec hl hfree h8 h32 hle request log
  cases htake.symm.trans hrun
  rw [hl₁.tagAt_size ((hgained.mem _).mpr (.inl rfl))]
  exact .allotted hsize hle

/-- A block that was found and one that the arena grew for are cut alike. -/
theorem allocateBlock_snug (hl : Laid h row idx) (hrun : allocateBlock request h = .ok p h') :
    Snug request (h'.tagAt p).size := by
  rcases blockSize_cases request with hblock | ⟨size, hblock, h8, h32, -, hmax⟩
  · simp only [allocateBlock, HeapM.bind_apply, hblock, refuse_apply] at hrun
    cases hrun
  rcases hfind : idx.find size with _ | e
  · rcases hl.grown h8 h32 hmax with
      ⟨err, g, hgrow, -⟩ | ⟨L, t, v, R, idx₁, g, hgrow, hl₁, -, hfree, hle, -⟩
    · rw [allocateBlock_denied hl hblock hfind hgrow] at hrun
      cases hrun
    · rw [allocateBlock_grown hl hblock hfind hgrow] at hrun
      exact take_snug hl₁ hfree hblock hle hrun
  · obtain ⟨L, t, v, R, rfl, hfree, rfl, hle⟩ := hl.found hfind
    rw [allocateBlock_found hl hblock hfind] at hrun
    exact take_snug hl hfree hblock hle hrun

/-- What is known of a block that was allocated. -/
theorem allocateBlock_inv (hl : Laid h row idx) (hrun : allocateBlock request h = .ok p h') :
    ∃ e row' idx', e.bp = p ∧ Laid h' row' idx' ∧ Allocated h h' row row' request e ∧
      e ∈ live row' ∧ Snug request e.size := by
  rcases allocateBlock_spec hl request with
    ⟨err, h₁, hrefused, -⟩ | ⟨e, h₁, row', idx', hblock, hl', ha⟩
  · cases hrefused.symm.trans hrun
  · cases hblock.symm.trans hrun
    have he : e ∈ live row' := (ha.gained.mem e).mpr (.inl rfl)
    exact ⟨e, row', idx', rfl, hl', ha, he, hl'.tagAt_size he ▸ allocateBlock_snug hl hblock⟩

theorem allocate_snug (hl : Laid h row idx) (hrun : allocate request h = .ok (some p) h') :
    Snug request (h'.tagAt p).size := by
  obtain ⟨hn, -⟩ := allocate_some hrun
  rcases allocateBlock_spec hl request with
    ⟨err, h₁, hrefused, -⟩ | ⟨e, h₁, row₁, idx₁, hblock, hl₁, -⟩
  · rw [allocate_refused hn hrefused] at hrun
    cases hrun
  · obtain ⟨hp, rfl, -⟩ := (Answers.allocate hn hblock hl₁).inv hrun
    cases hp
    exact allocateBlock_snug hl hblock

theorem tryZeroAllocate_snug (hl : Laid h row idx) {count elemSize : Nat}
    (hrun : tryZeroAllocate count elemSize h = .ok (some p) h') :
    count * elemSize ≠ 0 ∧ Snug (count * elemSize) (h'.tagAt p).size := by
  unfold tryZeroAllocate at hrun
  by_cases hbig : wordLimit ≤ count * elemSize
  · simp only [if_pos hbig, HeapM.bind_apply, log_told, refuse_apply] at hrun
    cases hrun
  rw [if_neg hbig] at hrun
  by_cases h0 : count * elemSize = 0
  · rw [if_pos h0] at hrun
    cases hrun
  rw [if_neg h0] at hrun
  obtain ⟨bp, h₁, hblock, hrun⟩ := HeapM.bind_ok.mp hrun
  obtain ⟨_, h₂, ⟨⟩, hrun⟩ := HeapM.bind_ok.mp hrun
  obtain ⟨_, h₃, hcheck, ⟨⟩⟩ := HeapM.bind_ok.mp hrun
  obtain ⟨e, row₁, idx₁, rfl, hl₁, ha, he, hsnug⟩ := allocateBlock_inv hl hblock
  have hroom := ha.room
  obtain ⟨hl₂, -⟩ :=
    ha.withMemory hl₁ (m := h₁.store.memory.fill e.bp 0 (count * elemSize)) fun x hx => by
    rw [Memory.byte_fill, if_neg fun hin => hx ⟨hin.1, by omega⟩]
  obtain ⟨rfl, -⟩ := checkAfter_inv hl₂ hcheck
  exact ⟨h0, by rw [hl₂.tagAt_size he]; exact hsnug⟩

theorem move_snug (hl : Laid h row idx) (he : e ∈ live row)
    (hrun : move e.bp e.size request h = .ok p h') : Snug request (h'.tagAt p).size := by
  rcases move_cases hl he request with
    ⟨err, g, hrefused, -⟩ | ⟨e', h₁, m, s', row₁, idx₁, hblock, hl₁, ha, -, hl₂, ha₂, hfree, hmove⟩
  · cases hrefused.symm.trans hrun
  cases hmove.symm.trans hrun
  have he' : e' ∈ live row₁ := (ha.gained.mem e').mpr (.inl rfl)
  have hsnug := allocateBlock_snug hl hblock
  rw [hl₁.tagAt_size he'] at hsnug
  -- the old block is freed, and the new one is not it
  obtain ⟨s'', row', idx', hfree', hl', hreleased⟩ :=
    free_laid hl₂ ((ha₂.gained.mem e).mpr (.inr he))
  cases hfree.symm.trans hfree'
  have he'' : e' ∈ live row' := by
    rw [live_without hreleased.held, List.mem_filter, bne_iff_ne]
    exact ⟨he', (ha.gained.fresh e he).symm⟩
  rw [hl'.tagAt_size he'']
  exact hsnug

/-- A block that is cut, grows or moves ends up with the same room. -/
theorem fit_snug (hl : Laid h row idx) (he : e ∈ live row) (hsize : blockSize request = .ok size)
    (hrun : fit h.bounds e.bp size e.size request h = .ok p h') :
    Snug request (h'.tagAt p).size := by
  obtain ⟨h8, h32, hroom, -⟩ := blockSize_ok hsize
  obtain ⟨t, ht, ha, rfl, h32t⟩ := hl.tiled.mem_live.mp he
  obtain ⟨L, u, R, rfl⟩ := hl.tiled.row.split ht h32t
  change fit h.bounds t.bp size t.tag.size request h = .ok p h' at hrun
  by_cases hle : size ≤ t.tag.size
  · obtain ⟨s', row', idx', hsplit, hl', hresized⟩ := shrink_laid hl ha h8 h32 hle hroom
    cases (fit_cut hle hsplit request).symm.trans hrun
    rw [hl'.tagAt_size ((hresized.swapped.mem _).mpr (.inl rfl))]
    exact .allotted hsize hle
  rcases growInPlace_laid hl ha h8 h32 hroom with
    hgrow | ⟨s', row', idx', total, hle', hgrow, hl', hresized⟩
  · exact move_snug hl he ((fit_moved hle hgrow request).symm.trans hrun)
  · cases (fit_grown hle hgrow request).symm.trans hrun
    rw [hl'.tagAt_size ((hresized.swapped.mem _).mpr (.inl rfl))]
    exact .allotted hsize hle'

theorem tryReallocate_snug (hl : Laid h row idx) (he : e ∈ live row) (hn : request ≠ 0)
    (hrun : tryReallocate e.bp request h = .ok (some p) h') :
    Snug request (h'.tagAt p).size := by
  obtain ⟨size, new, g, hblock, hfit, ha, rfl⟩ := tryReallocate_inv hl he hn hrun
  cases ha
  rw [(same_told g _).tagAt]
  exact fit_snug hl he hblock hfit

/-! ## Reallocating to the size that a block has -/

/-- The heap `h'` has the bytes, the buckets and the arena of `h`. -/
structure Intact (h h' : Heap A) : Prop where
  bytes : ∀ x, h'.store.memory.byte x = h.store.memory.byte x
  buckets : h'.store.buckets = h.store.buckets
  arena : h'.arena = h.arena
  prologue : h'.prologue = h.prologue
  config : h'.config = h.config

omit [Arena A] [LawfulArena A] in
/-- A flag that is right already is not written. -/
theorem setPrevAlloc_same {r : Region} {m : Memory} {bp : Nat} {tag : Tag}
    (htag : r.tag bp m = .ok tag) :
    r.setPrevAlloc bp tag.prevAlloc m = .ok () m := by
  simp only [Region.setPrevAlloc, Writing.bind_apply, Writing.lift_reading, htag, bne_self_eq_false,
    Bool.false_eq_true, if_false]
  rfl

/-- Nothing comes off the block, and its header and the next one are as they should be. -/
theorem split_intact (hl : Laid h (L ++ t :: u :: R) idx) (ha : t.tag.alloc = true)
    (hle : size ≤ t.tag.size) (hlt : t.tag.size < size + 32) :
    ∃ m, Store.split h.bounds t.bp size h.store = .ok () ⟨m, h.store.buckets⟩ ∧
      ∀ x, m.byte x = h.store.memory.byte x := by
  have ht : t ∈ L ++ t :: u :: R := by simp
  have hu : u ∈ L ++ t :: u :: R := by simp
  obtain ⟨hlow, hstop, hhigh⟩ := hl.tiled.within ht
  have hword : Tag.encode ⟨t.tag.size, t.tag.prevAlloc, true⟩ = h.store.memory.word (t.bp - 8) := by
    rw [(hl.tiled.written t ht).header, ← ha]
  have hsame := Memory.byte_setWord_word h.store.memory (t.bp - 8)
  have htiled : Tiled h.bounds (h.store.memory.setWord (t.bp - 8) (h.store.memory.word (t.bp - 8)))
      h.firstBlock (L ++ t :: u :: R) :=
    hl.tiled.congr fun _ _ y _ => hsame y
  obtain ⟨hnext, hprev⟩ := hl.tiled.next
  have hset := setPrevAlloc_same (htiled.tag hu)
  rw [hprev, ha, hnext] at hset
  refine ⟨_, ?_, hsame⟩
  simp only [Store.split, StoreM.bind_apply, StoreM.lift_reading, StoreM.lift_writing,
    hl.tiled.tag ht, Nat.not_lt.mpr hle, if_false, minBlock, show ¬ 32 ≤ t.tag.size - size by omega,
    Region.writeAllocated_eq (show h.bounds.low + 8 ≤ t.bp by omega)
    (show t.bp ≤ h.bounds.high by omega), hword, htiled.above ht, hset]

/-- Reallocation to a size that a live block is snug for answers with the block and leaves all
    as it is. -/
theorem tryReallocate_intact (hl : Laid h row idx) (hc : h.Checkable) (he : e ∈ live row)
    (hn : request ≠ 0) (hsnug : Snug request e.size) :
    ∃ h', tryReallocate e.bp request h = .ok (some e.bp) h' ∧ Intact h h' := by
  obtain ⟨size, hblock, hle, hlt⟩ := hsnug
  obtain ⟨t, ht, ha, rfl, h32t⟩ := hl.tiled.mem_live.mp he
  obtain ⟨L, u, R, rfl⟩ := hl.tiled.row.split ht h32t
  obtain ⟨m, hsplit, hbytes⟩ := split_intact hl ha hle hlt
  have hl' : Laid (h.withMemory m) _ idx := hl.withMemory fun x _ => hbytes x
  have hfit : fit h.bounds t.entry.bp size t.entry.size request h = .ok t.entry.bp
      (h.withMemory m) := fit_cut hle hsplit request
  have hsame := same_told (h.withMemory m)
      (.reallocated t.entry.bp t.entry.bp request (t.entry.bp == t.entry.bp))
  refine ⟨_, (tryReallocate_answers hl he hn hblock hfit hl').run (hsame.checkable hc), fun x => ?_,
    ?_, ?_, hsame.prologue, hsame.config⟩
  · rw [hsame.store]; exact hbytes x
  · rw [hsame.store]; rfl
  · exact told_arena _ _

end Heap

/-! ## Runs -/

/-- The bytes that a call asks for. -/
def Call.bytes : Call → Nat
  | .allocate size | .reallocate _ size | .tryReallocate _ size => size
  | .zeroAllocate count elemSize | .tryZeroAllocate count elemSize => count * elemSize
  | .release _ | .tryRelease _ | .store .. => 0

/-- The bytes that the latest call answered with `p` asked for. -/
def asked (past : List (Call × Answer)) (p : Nat) : Option Nat :=
  past.foldl (fun n c => if c.2 = .ok (some p) then some c.1.bytes else n) none

theorem asked_concat (past : List (Call × Answer)) (call : Call) (answer : Answer) (p : Nat) :
    asked (past ++ [(call, answer)]) p = if answer = .ok (some p) then some call.bytes
    else asked past p := by
  rw [asked, List.foldl_append]
  rfl

section Runs

variable {A : Type} [Arena A] [LawfulArena A] {w w' : World A} {h h' : Heap A}
  {row row' : List Tile} {idx : Index} {d : Demand} {call : Call} {answer : Answer} {e : Entry}
  {p n : Nat}

/-- A live block is what a demand was answered with, or was there before, with the same size. -/
theorem Turn.stays (ht : Turn h h' row row' d answer) (he : e ∈ live row') :
    answer = .ok (some e.bp) ∨ e ∈ live row := by
  cases ht with
  | still | written => exact .inr he
  | added ha =>
    rcases (ha.gained.mem e).mp he with rfl | he
    · exact .inl rfl
    · exact .inr he
  | dropped _ hr =>
    rw [live_without hr.held] at he
    exact .inr (List.mem_filter.mp he).1
  | resized _ hr =>
    rcases (hr.swapped.mem e).mp he with rfl | ⟨he, -⟩
    · exact .inl rfl
    · exact .inr he

namespace World.Sound

/-- Reallocation that is answered with a block. -/
theorem tryReallocate_snug (hw : w.Sound row idx) {addr : Nat} (hp : w.MayName addr)
    (hrun : Heap.tryReallocate addr n w.heap = .ok (some p) h') :
    n ≠ 0 ∧ Snug n (h'.tagAt p).size := by
  have hn : n ≠ 0 := by
    rintro rfl
    rw [Heap.tryReallocate_zero] at hrun
    obtain ⟨_, _, -, ⟨⟩⟩ := HeapM.bind_ok.mp hrun
  refine ⟨hn, ?_⟩
  rcases hw.named hp with rfl | ⟨e, he, rfl⟩ | ⟨h0, fault, hr⟩
  · unfold Heap.tryReallocate at hrun
    rw [if_neg hn, if_pos rfl] at hrun
    obtain ⟨bp, h₁, hblock, hrun⟩ := HeapM.bind_ok.mp hrun
    obtain ⟨_, h₂, hafter, ⟨⟩⟩ := HeapM.bind_ok.mp hrun
    obtain ⟨e, row₁, idx₁, rfl, hl₁, -, he, hsnug⟩ := Heap.allocateBlock_inv hw.laid hblock
    obtain ⟨rfl, -⟩ := Heap.checkAfter_inv hl₁ hafter
    rw [hl₁.tagAt_size he]
    exact hsnug
  · exact Heap.tryReallocate_snug hw.laid he hn hrun
  · cases (Heap.tryReallocate_rejected hr h0 hn).symm.trans hrun

/-- A call that is answered with a block asked for some bytes, and the block is snug for them. -/
theorem step_snug (hw : w.Sound row idx) (hs : w.Step call (.ok (some p)) w') :
    call.bytes ≠ 0 ∧ Snug call.bytes (w'.heap.tagAt p).size := by
  obtain ⟨hp, hrun⟩ := hs
  have hrun := Heap.attempt_answer hrun
  cases call with
  | allocate size => exact ⟨(Heap.allocate_some hrun).1, Heap.allocate_snug hw.laid hrun⟩
  | zeroAllocate count elemSize =>
    exact Heap.tryZeroAllocate_snug hw.laid (Heap.zeroAllocate_some hrun)
  | tryZeroAllocate count elemSize => exact Heap.tryZeroAllocate_snug hw.laid hrun
  | reallocate addr size => exact hw.tryReallocate_snug hp (Heap.reallocate_some hrun)
  | tryReallocate addr size => exact hw.tryReallocate_snug hp hrun
  | release | tryRelease | store =>
    obtain ⟨_, _, -, ⟨⟩⟩ := HeapM.bind_ok.mp hrun

end World.Sound

/-- Every live block is snug for what was last asked for at its address. -/
theorem Run.last_asked {arena : A} {memory : Memory} {config : Config} {past : List (Call × Answer)}
    (hs : LawfulArena.Sane arena) (hr : Run arena memory config past w) (hp : p ∈ w.holds) :
    ∃ n, asked past p = some n ∧ n ≠ 0 ∧ Snug n (w.heap.tagAt p).size := by
  induction hr with
  | start => exact absurd hp (Finset.notMem_empty p)
  | @step past w w' call answer hr hstep ih =>
    obtain ⟨row, idx, hw⟩ := hr.sound hs
    obtain ⟨row', idx', hw', ht⟩ := hw.step hstep
    obtain ⟨e, he', rfl⟩ := (hw'.holds p).mp hp
    rw [asked_concat]
    by_cases hanswer : answer = .ok (some e.bp)
    · subst hanswer
      exact ⟨call.bytes, if_pos rfl, hw.step_snug hstep⟩
    · -- another call, which left the block alone
      have he := (ht.stays he').resolve_left hanswer
      obtain ⟨n, hn, h0, hsnug⟩ := ih ((hw.holds _).mpr ⟨e, he, rfl⟩)
      rw [hw.laid.tagAt_size he, ← hw'.laid.tagAt_size he'] at hsnug
      exact ⟨n, by rw [if_neg hanswer, hn], h0, hsnug⟩

/-- After any run, a live block has the size that the last request answered with its address
    needs, with less than a least block on top. So it has room for that request, and
    reallocating it to the same bytes answers with it and leaves every byte, every bucket and
    the arena as they are. -/
theorem Run.snug {arena : A} {memory : Memory} {config : Config} {past : List (Call × Answer)}
    (hs : LawfulArena.Sane arena) (hr : Run arena memory config past w) (hp : p ∈ w.holds) :
    ∃ n size, asked past p = some n ∧ blockSize n = .ok size ∧ size ≤ (w.heap.tagAt p).size ∧
      (w.heap.tagAt p).size < size + 32 ∧
      (∃ usable, Heap.usableSize p w.heap = .ok (some usable) w.heap ∧ n ≤ usable) ∧
      ∃ h', Heap.tryReallocate p n w.heap = .ok (some p) h' ∧ w.heap.Intact h' := by
  obtain ⟨n, hn, h0, hsnug⟩ := hr.last_asked hs hp
  obtain ⟨row, idx, hw⟩ := hr.sound hs
  obtain ⟨e, he, rfl⟩ := (hw.holds p).mp hp
  have hsize := hw.laid.tagAt_size he
  obtain ⟨h', hrun, hintact⟩ := Heap.tryReallocate_intact hw.laid hw.checkable he h0 (hsize ▸ hsnug)
  obtain ⟨size, hblock, hle, hlt⟩ := hsnug
  obtain ⟨-, -, hroom, -⟩ := Heap.blockSize_ok hblock
  exact ⟨n, size, hn, hblock, hle, hlt, ⟨e.size - 8, Heap.usableSize_live hw.laid he, by omega⟩, h',
    hrun, hintact⟩

end Runs

/-- Of a free block of 64 bytes all but 16 were asked for, and nothing was cut off. -/
theorem Run.snug_page : ∃ w h', Run page .blank {}
      [(.allocate 56, .ok (some 4128)), (.allocate 24, .ok (some 4192)), (.release 4128, .ok none),
      (.allocate 40, .ok (some 4128))] w ∧
    w.heap.tagAt 4128 = ⟨64, true, true⟩ ∧ blockSize 40 = .ok 48 ∧
    Heap.tryReallocate 4128 40 w.heap = .ok (some 4128) h' ∧ w.heap.Intact h' := by
  obtain ⟨w, hr, hholds, htag⟩ :=
    Run.of_trial page .blank {} [.allocate 56, .allocate 24, .release 4128, .allocate 40]
    [.ok (some 4128), .ok (some 4192), .ok none, .ok (some 4128)] (fun h => h.tagAt 4128)
      ⟨64, true, true⟩ (by decide +kernel) (by decide +kernel)
  have hheld : 4128 ∈ w.holds := by
    rw [hholds]
    decide +kernel
  obtain ⟨n, size, hn, -, -, -, -, h', hrun, hintact⟩ := Run.snug (A := FixedArena) trivial hr hheld
  obtain rfl : n = 40 := by simpa [asked, Call.bytes] using hn.symm
  exact ⟨w, h', hr, htag, rfl, hrun, hintact⟩

end BoundaryTag
