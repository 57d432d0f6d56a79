/-
  BoundaryTag.Proofs.Unmistakable — headers in the life of a heap.

  A header that is no longer one is written over: by a free block's tag when its block is freed,
  and the epilogue by the tag of the new block when the arena grows. Reallocation copies the
  payload of a live block, and in that there is no header.

  Proved: the operations bring the headers of live blocks to those of live blocks. So if fresh
  memory has no word that could be taken for one, and the program writes none, then every such
  word is the header of a block that the program holds, or the epilogue (`Run.unmistakable`).
-/

import BoundaryTag.Proofs.Lookalikes
import BoundaryTag.Proofs.Refusals
import BoundaryTag.Proofs.Windows

namespace BoundaryTag

open Backed

/-! ## Payloads -/

namespace Memory

variable {m : Memory} {a b src dst count : Nat} {bytes : List UInt8}

theorem odd_fill (h : (m.fill a 0 count).word b % 2 = 1) : m.word b % 2 = 1 := by
  rw [word_mod_two, byte_fill] at h
  rw [word_mod_two]
  by_cases hin : a ≤ b ∧ b < a + count
  · rw [if_pos hin] at h
    cases h
  · rwa [if_neg hin] at h

/-- Copied between aligned addresses, words keep their bit 0. -/
theorem odd_copy (hb : b % 8 = 0) (hsrc : src % 8 = 0) (hdst : dst % 8 = 0)
    (h : (m.copy src dst count).word b % 2 = 1) :
    m.word b % 2 = 1 ∨ ∃ i < count, (src + i) % 8 = 0 ∧ m.word (src + i) % 2 = 1 := by
  rw [word_mod_two, byte_copy] at h
  by_cases hin : dst ≤ b ∧ b < dst + count
  · rw [if_pos hin, ← word_mod_two] at h
    exact .inr ⟨b - dst, by omega, by omega, h⟩
  · rw [if_neg hin, ← word_mod_two] at h
    exact .inl h

end Memory

/-- The call writes no byte that sets bit 0 of an aligned word. -/
def Call.Even : Call → Prop
  | .store addr bytes => ∀ i b, bytes[i]? = some b → (addr + i) % 8 = 0 → b.toNat % 2 = 0
  | _ => True

theorem Memory.odd_store {m : Memory} {a b : Nat} {bytes : List UInt8}
    (heven : (Call.store a bytes).Even) (hb : b % 8 = 0) (h : (m.store a bytes).word b % 2 = 1) :
    m.word b % 2 = 1 := by
  rw [word_mod_two, byte_store] at h
  rw [word_mod_two]
  by_cases hle : a ≤ b
  · rw [if_pos hle] at h
    cases hbyte : bytes[b - a]? with
    | none => rwa [hbyte] at h
    | some c =>
      have hc : c.toNat % 2 = 0 := heven (b - a) c hbyte (by omega)
      rw [hbyte, Option.getD_some, hc] at h
      cases h
  · rwa [if_neg hle] at h

/-! ## Steps on a heap -/

section Heaps

variable {A α β : Type} [Arena A] {K N : Nat → Prop} {J : α → Nat → Prop} {L : β → Nat → Prop}
  {h h' : Heap A}

theorem headed_heap : Headed K h ↔ ∀ a, a % 8 = 0 → h.store.memory.word a % 2 = 1 →
    a + 8 = h.bounds.high ∨ K (a + 8) := Iff.rfl

theorem headed_heap_store : Headed K h ↔ Headed (fun q => q = h.bounds.high ∨ K q) h.store := by
  rw [headed_heap, headed_store, headed_memory]

theorem Headed.unchanged (hK : Headed K h) (hs : h'.store = h.store) (hb : h'.bounds = h.bounds) :
    Headed K h' :=
  hK.same (congrArg Store.memory hs) (congrArg Region.high hb)

/-- Another memory, with bit 0 set nowhere else. -/
theorem Headed.withMemory (hK : Headed K h) {m : Memory}
    (hm : ∀ a, a % 8 = 0 → m.word a % 2 = 1 → h.store.memory.word a % 2 = 1) :
    Headed K (h.withMemory m) :=
  headed_heap.mpr fun a ha hodd => headed_heap.mp hK a ha (hm a ha hodd)

namespace Brings

theorem heap_look {x : Reading α} {f : α → HeapM A β} {a : α} (hrun : x h.store.memory = .ok a)
    (hf : Brings K L (f a) h) :
    Brings K L (liftM x >>= f) h :=
  .step (by rw [HeapM.lift_reading, hrun]) id hf

theorem heap_reading {x : Reading α} : Brings K (fun _ => K) (liftM x : HeapM A α) h := by
  refine .quiet fun a h' hrun => ?_
  rw [HeapM.lift_reading] at hrun
  split at hrun
  · cases hrun
    exact ⟨rfl, rfl⟩
  · cases hrun

theorem heap_put {x : StoreM α} {f : α → HeapM A β} {a : α} {s : Store} (hrun : x h.store = .ok a s)
    (hx : Brings (fun q => q = h.bounds.high ∨ K q) (fun _ q => q = h.bounds.high ∨ N q) x h.store)
    (hf : Brings N L (f a) { h with store := s }) : Brings K L (liftM x >>= f) h := by
  have hput : (liftM x : HeapM A α) h = .ok a { h with store := s } := by
    rw [HeapM.lift_store, hrun]
  refine .step hput (fun hs => ?_) hf
  exact headed_heap_store.mpr (hx a s hrun (headed_heap_store.mp hs))

theorem heap_store {x : StoreM α}
    (hx : Brings (fun q => q = h.bounds.high ∨ K q)
      (fun a q => q = h.bounds.high ∨ J a q) x h.store) :
    Brings K J (liftM x : HeapM A α) h := by
  intro a h' hrun hs
  rw [HeapM.lift_store] at hrun
  rcases hrun₁ : x h.store with ⟨b, s⟩ | ⟨f, s⟩
  · rw [hrun₁] at hrun
    cases hrun
    exact headed_heap_store.mpr (hx a s hrun₁ (headed_heap_store.mp hs))
  · rw [hrun₁] at hrun
    cases hrun

theorem heap_write {x : Writing α} {f : α → HeapM A β} {a : α} {m : Memory}
    (hrun : x h.store.memory = .ok a m)
    (hx : Brings (fun q => q = h.bounds.high ∨ K q)
      (fun _ q => q = h.bounds.high ∨ N q) x h.store.memory)
    (hf : Brings N L (f a) (h.withMemory m)) : Brings K L (liftM x >>= f) h := by
  have hput : (liftM x : HeapM A α) h = .ok a (h.withMemory m) := by
    rw [HeapM.lift_writing, hrun]
    rfl
  refine .step hput (fun hs => ?_) hf
  exact headed_heap_store.mpr (hx a m hrun (headed_heap_store.mp hs))

theorem region : Brings K (fun _ => K) (Heap.region : HeapM A Region) h := by
  refine .quiet fun r h' hrun => ?_
  obtain ⟨rfl, -⟩ := Heap.region_ok.mp hrun
  exact ⟨rfl, rfl⟩

theorem log (e : Event) : Brings K (fun _ => K) (Heap.log e : HeapM A Unit) h := by
  refine .quiet fun u h' hrun => ?_
  have hu := Heap.unchanged_log hrun
  exact ⟨congrArg Store.memory hu.store, congrArg Region.high hu.bounds⟩

theorem emit (e : Event) : Brings K (fun _ => K) (Heap.emit e : HeapM A Unit) h := by
  refine .quiet fun u h' hrun => ?_
  cases hrun
  exact ⟨rfl, rfl⟩

end Brings

end Heaps

namespace Heap

variable {A : Type} [Arena A] [LawfulArena A] {K : Nat → Prop} {h h' : Heap A} {row L R : List Tile}
  {idx : Index} {t v : Tile} {e : Entry}

theorem checkAfter_brings (hl : Laid h row idx) (op : Operation) :
    Brings K (fun _ => K) (checkAfter op) h := by
  refine .quiet fun u h' hrun => ?_
  obtain ⟨rfl, -⟩ := checkAfter_inv hl hrun
  exact ⟨rfl, rfl⟩

/-- The last steps of an operation that answers `a`. -/
theorem checked_brings {α : Type} (hl : Laid h row idx) (op : Operation) (a : α)
    {J : α → Nat → Prop} :
    Brings (J a) J (do checkAfter op; return a : HeapM A α) h :=
  .bind (checkAfter_brings hl op) fun _ _ _ => .pure a fun _ hq => hq

/-- The old epilogue is written over, and the new one is the last word below the top. -/
theorem grow_brings (hl : Laid h row idx) {words : Nat} (hw : words + 1 < wordLimit)
    (h4 : 4 ≤ words) :
    Brings K (fun _ => K) (grow words) h := by
  have hadd : checkedAdd words (words % 2) = .ok (words + words % 2) := checkedAdd_ok (by omega)
  have hle := hl.tiled.row.le
  have hlow := hl.tiled.low_le
  have h8 : h.bounds.high % 8 = 0 := hl.tiled.row.high_aligned hl.tiled.aligned
  unfold grow
  refine .step (by rw [HeapM.lift_except, hadd]) id (.ite (fun _ => .halt rfl) fun _ => ?_)
  rcases claimOrTell_cases hl.sane ((words + words % 2) * wordSize) with
    ⟨a, hclaim, hlow', hhigh', hlt, -⟩ | ⟨err, h', hclaim, -⟩
  · obtain ⟨h₁, hh₁⟩ : ∃ h₁ : Heap A, h₁ = { h with arena := a } := ⟨_, rfl⟩
    have hlow₁ : h₁.bounds.low = h.bounds.low := by rw [hh₁]; exact hlow'
    have hhigh₁ : h₁.bounds.high = h.bounds.high + (words + words % 2) * 8 := by
      rw [hh₁]
      exact hhigh'
    have hstore₁ : h₁.store = h.store := by rw [hh₁]
    have hlt₁ : h₁.bounds.high < wordLimit := by rw [hh₁]; exact hlt
    have hal : h₁.bounds.low % 8 = 0 := by rw [hlow₁]; exact hl.low_aligned
    have hregion : Heap.region h₁ = .ok h₁.bounds h₁ :=
      region_eq (show h₁.bounds.low ≤ h₁.bounds.high by omega) hal
    obtain ⟨L, q, rfl, -⟩ := hl.tiled.row.snoc
    obtain ⟨m₁, m₂, htag, hwrite₁, habove, hwrite₂, hfiled, -⟩ :=
      hl.sound.lengthen hlow₁ hhigh₁ (by omega) (by omega) hlt₁
    have hopen : Headed K h → Headed (fun q => q = h.bounds.high ∨ K q) h₁ :=
      fun hs => headed_heap.mpr fun a ha hodd => .inr (headed_heap.mp hs a ha (hstore₁ ▸ hodd))
    -- from here on the old epilogue is a header like any other, until the free
    -- block's tag takes its place
    refine .step (hclaim.trans (by rw [hh₁])) hopen
      (.step hregion id (.heap_look (hstore₁ ▸ htag) ?_))
    refine .heap_write (N := K) (hstore₁ ▸ hwrite₁)
      (.mono (brings_writeFree h8 (Nat.mul_mod_left _ _)) fun _ q hq => ?_) (.heap_look habove ?_)
    · exact hq.1.imp_right fun hq' => hq'.resolve_left hq.2
    refine .heap_write (N := K) hwrite₂
      (.mono (brings_writeAllocated (by omega)) fun _ q hq => ?_) ?_
    · exact hq.elim id .inl
    refine .bind (.log _) fun _ h₂ hlog => .heap_store ?_
    have hsame := unchanged_log hlog
    rw [hsame.bounds, hsame.store,
      show ((h₁.withMemory m₁).withMemory m₂).store = ⟨m₂, h.store.buckets⟩ by rw [← hstore₁]; rfl]
    exact Filed.coalesce_brings (t := ⟨h.bounds.high, ⟨(words + words % 2) * 8, q, false⟩⟩) hal
      hfiled rfl hl.sound.spaced_left
      fun _ hx => absurd hx List.not_mem_nil
  · exact .halt hclaim

theorem take_brings (hl : Laid h (L ++ t :: v :: R) idx) (hfree : t.tag.alloc = false) {size : Nat}
    (h8 : size % 8 = 0) (h32 : 32 ≤ size) (hle : size ≤ t.tag.size) (request : Nat) (log : Bool) :
    Brings K (fun p q => K q ∨ q = p) (take request size t.bp log) h := by
  obtain ⟨s', row', idx', hrun, -⟩ := place_laid hl hfree h8 h32 hle
  refine .step hl.region id
    (.heap_put (N := fun q => K q ∨ q = t.bp) hrun ?_ (.ite (fun _ => ?_) fun _ => ?_))
  · exact (hl.sound.place_brings hl.low_aligned hfree h8 h32 hle).mono fun _ q hq => or_assoc.mp hq
  · exact .bind .heap_reading fun _ _ _ => .bind (.emit _) fun _ _ _ => .pure _ fun _ hq => hq
  · exact .pure _ fun _ hq => hq

theorem allocateBlock_brings (hl : Laid h row idx) (request : Nat) :
    Brings K (fun p q => K q ∨ q = p) (allocateBlock request) h := by
  unfold allocateBlock
  rcases blockSize_cases request with hblock | ⟨size, hblock, h8, h32, -, hmax⟩
  · rw [hblock]
    exact .halt rfl
  rw [hblock]
  refine .step rfl id (.step hl.region id (.bind_get ?_))
  have hfit := hl.sound.filed.files.findFit h32
  rcases hfind : idx.find size with _ | e
  · rw [hfind] at hfit
    refine .heap_look hfit ?_
    obtain ⟨hlt, h4, -⟩ := growth_bounds h.config h32 hmax
    rcases hl.grown h8 h32 hmax with
      ⟨err, h', hgrow, -⟩ | ⟨L, t, v, R, idx₁, h₁, hgrow, hl₁, -, hfree, hle, -⟩
    · exact .halt hgrow
    · exact .step hgrow (grow_brings hl hlt h4 _ _ hgrow)
        (take_brings hl₁ hfree h8 h32 hle request _)
  · rw [hfind] at hfit
    refine .heap_look hfit ?_
    obtain ⟨L, t, v, R, rfl, hfree, rfl, hle⟩ := hl.found hfind
    exact .step rfl id (take_brings hl hfree h8 h32 hle request _)

/-- A block that was allocated, and that some operation will answer with. -/
theorem allocateBlock_headed (hl : Laid h row idx) {request p : Nat}
    (hrun : allocateBlock request h = .ok p h') (hs : Headed K h) :
    Headed (fun q => K q ∨ some p = some q) h' :=
  (allocateBlock_brings hl request p h' hrun hs).mono fun _ hq => hq.imp_right fun heq =>
    congrArg some heq.symm

theorem allocate_brings (hl : Laid h row idx) (size : Nat) :
    Brings K (fun a q => K q ∨ a = some q) (allocate size) h := by
  unfold allocate
  refine .ite (fun _ => .pure _ fun _ hq => .inl hq) fun _ => ?_
  rcases allocateBlock_spec hl size with ⟨err, h', hrun, hsame⟩ | ⟨e, h', row', idx', hrun, hl', -⟩
  · exact .step (attempt_refused hrun) (fun hs => hs.unchanged hsame.store hsame.bounds)
      (.pure _ fun _ hq => .inl hq)
  · exact .step (attempt_ok hrun) (allocateBlock_headed hl hrun)
      (checked_brings hl' .allocate (J := fun a q => K q ∨ a = some q) (some e.bp))

/-- The zeros of a new block set no bit. -/
theorem tryZeroAllocate_brings (hl : Laid h row idx) (count elemSize : Nat) :
    Brings K (fun a q => K q ∨ a = some q) (tryZeroAllocate count elemSize) h := by
  unfold tryZeroAllocate
  refine .ite (fun _ => .bind (.log _) fun _ _ _ => .halt rfl) fun _ =>
    .ite (fun _ => .pure _ fun _ hq => .inl hq) fun _ => ?_
  rcases allocateBlock_spec hl (count * elemSize) with
    ⟨err, h', hrun, -⟩ | ⟨e, h', row', idx', hrun, hl', ha⟩
  · exact .halt hrun
  · have hroom := ha.room
    obtain ⟨hl'', -⟩ :=
      ha.withMemory hl' (m := h'.store.memory.fill e.bp 0 (count * elemSize)) fun x hx => by
      rw [Memory.byte_fill, if_neg fun hin => hx ⟨hin.1, by omega⟩]
    refine .step hrun (allocateBlock_headed hl hrun)
      (.step (modifyMemory_apply _ _) (fun hs => hs.withMemory fun _ _ => Memory.odd_fill) ?_)
    exact checked_brings hl'' .zeroAllocate (J := fun a q => K q ∨ a = some q) (some e.bp)

omit [LawfulArena A] in
/-- The plain operation answers with a block when the other does. -/
theorem zeroAllocate_some {count elemSize p : Nat}
    (hrun : zeroAllocate count elemSize h = .ok (some p) h') :
    tryZeroAllocate count elemSize h = .ok (some p) h' := by
  obtain ⟨answer, h₁, hattempt, hrun⟩ := HeapM.bind_ok.mp hrun
  cases answer with
  | error => cases hrun
  | ok =>
    cases hrun
    exact attempt_answer hattempt

/-- Reallocation of null allocates. -/
theorem tryReallocate_null_brings (hl : Laid h row idx) {request : Nat} (hn : request ≠ 0) :
    Brings K (fun a q => K q ∨ a = some q) (tryReallocate 0 request) h := by
  unfold tryReallocate
  refine .ite (fun h0 => absurd h0 hn) fun _ => .ite (fun _ => ?_) fun h0 => absurd rfl h0
  rcases allocateBlock_spec hl request with ⟨err, h', hrun, -⟩ | ⟨e, h', row', idx', hrun, hl', -⟩
  · exact .halt hrun
  · exact .step hrun (allocateBlock_headed hl hrun)
      (checked_brings hl' .reallocate (J := fun a q => K q ∨ a = some q) (some e.bp))

/-! ## Releasing and resizing -/

theorem free_brings (hl : Laid h row idx) (he : e ∈ live row) :
    Brings (fun q => q = h.bounds.high ∨ K q) (fun _ q => q = h.bounds.high ∨ K q ∧ q ≠ e.bp)
      (Store.free h.bounds e.bp) h.store := by
  obtain ⟨t, ht, ha, rfl, h32⟩ := hl.tiled.mem_live.mp he
  obtain ⟨L, u, R, rfl⟩ := hl.tiled.row.split ht h32
  exact (hl.sound.free_brings hl.low_aligned ha).mono fun _ q hq =>
    hq.1.imp_right fun hK => ⟨hK, hq.2⟩

theorem tryRelease_brings (hl : Laid h row idx) (he : e ∈ live row) :
    Brings K (fun _ q => K q ∧ q ≠ e.bp) (tryRelease e.bp) h := by
  obtain ⟨s', row', idx', hrun, hl', -⟩ := free_laid hl he
  have hcheck := checkAddress_live hl he
  have h0 := live_ne_zero hl he
  unfold tryRelease
  refine .ite (fun h0' => absurd h0' h0) fun _ =>
    .step hcheck id (.step hl.region id (.bind .heap_reading fun n h₁ hread => ?_))
  obtain rfl := Looks.ok (.reading _) hread
  refine .heap_put hrun (free_brings hl he) (.step (log_told _ _) (fun hs => hs.unchanged ?_ ?_)
    (checkAfter_brings (hl'.same (same_told _ _)) _))
  · exact (same_told _ _).store
  · exact (same_told _ _).bounds

/-- The addresses of the live blocks, and all below the first block. -/
def heads (h : Heap A) (row : List Tile) (q : Nat) : Prop :=
  q < h.firstBlock ∨ ∃ f ∈ live row, f.bp = q

/-- No header lies in the payload of a live block. -/
theorem Laid.headless (hl : Laid h row idx) (he : e ∈ live row) {q : Nat} (h₁ : e.bp < q)
    (h₂ : q < e.bp + e.size) :
    q ≠ h.bounds.high ∧ ¬ h.heads row q := by
  obtain ⟨hfirst, -, hhigh⟩ := hl.live_bounds he
  refine ⟨by omega, fun hq => ?_⟩
  rcases hq with hlt | ⟨f, hf, hq⟩
  · omega
  · obtain ⟨-, h32, -⟩ := hl.live_bounds hf
    rcases hl.tiled.live_apart he hf with rfl | hapart | hapart <;> omega

theorem live_aligned (hl : Laid h row idx) (he : e ∈ live row) : e.bp % 8 = 0 := by
  obtain ⟨t, ht, -, rfl, -⟩ := hl.tiled.mem_live.mp he
  exact hl.tiled.row.aligned hl.tiled.aligned ht

/-- So there is none in what is copied from there. -/
theorem Laid.headed_copy (hl : Laid h row idx) (he : e ∈ live row) {dst count : Nat}
    (h8 : dst % 8 = 0) (hcount : count + 8 ≤ e.size) (hK : ∀ q, K q → h.heads row q)
    (hs : Headed K h) : Headed K (h.withMemory (h.store.memory.copy e.bp dst count)) := by
  refine hs.withMemory fun b hb hodd => ?_
  rcases Memory.odd_copy hb (live_aligned hl he) h8 hodd with hsame | ⟨i, hi, hi8, hsrc⟩
  · exact hsame
  · obtain ⟨hhigh, hnone⟩ := hl.headless he (q := e.bp + i + 8) (by omega) (by omega)
    rcases headed_heap.mp hs _ hi8 hsrc with htop | hq
    · exact absurd htop hhigh
    · exact absurd (hK _ hq) hnone

theorem move_brings (hl : Laid h row idx) (he : e ∈ live row) (request : Nat) :
    Brings (h.heads row) (fun p q => h.heads row q ∧ q ≠ e.bp ∨ q = p)
      (move e.bp e.size request) h := by
  unfold move
  rcases allocateBlock_spec hl request with ⟨err, h', hrun, -⟩ | ⟨e', h₁, row₁, idx₁, hrun, hl₁, ha⟩
  · exact .halt hrun
  have hroom := ha.room
  have hsize := (hl.live_bounds he).2.1
  have he₁ : e ∈ live row₁ := (ha.gained.mem e).mpr (.inr he)
  have he' : e' ∈ live row₁ := (ha.gained.mem e').mpr (.inl rfl)
  obtain ⟨hl₂, -⟩ := ha.withMemory hl₁
      (m := h₁.store.memory.copy e.bp e'.bp (min (e.size - wordSize) request)) fun x hx => by
    rw [Memory.byte_copy, if_neg fun hin => hx ⟨hin.1, by omega⟩]
  obtain ⟨s', row', idx', hfree, -⟩ := free_laid hl₂ he₁
  have hheads : ∀ q, h.heads row q ∨ q = e'.bp → h₁.heads row₁ q := by
    intro q hq
    rcases hq with (hlt | ⟨f, hf, hq⟩) | hq
    · exact .inl (ha.later.firstBlock ▸ hlt)
    · exact .inr ⟨f, (ha.gained.mem f).mpr (.inr hf), hq⟩
    · exact .inr ⟨e', he', hq.symm⟩
  have hfits : min (e.size - wordSize) request + 8 ≤ e.size := by
    simp only [wordSize]
    omega
  have hcopy := hl₁.headed_copy he₁ (live_aligned hl₁ he') hfits hheads
  refine .step hrun (allocateBlock_brings hl request _ _ hrun)
    (.step hl₁.region id (.step (modifyMemory_apply _ _) hcopy ?_))
  refine .heap_put hfree (free_brings hl₂ he₁) (.pure _ fun q hq => ?_)
  exact hq.1.imp_left fun hq' => ⟨hq', hq.2⟩

theorem fit_brings {size request : Nat} (hl : Laid h row idx) (he : e ∈ live row)
    (h8 : size % 8 = 0) (h32 : 32 ≤ size) (hroom : request + 8 ≤ size) :
    Brings (h.heads row) (fun p q => h.heads row q ∧ q ≠ e.bp ∨ q = p)
      (fit h.bounds e.bp size e.size request) h := by
  obtain ⟨t, ht, ha, rfl, h32t⟩ := hl.tiled.mem_live.mp he
  obtain ⟨L, u, R, rfl⟩ := hl.tiled.row.split ht h32t
  have hstay : ∀ h₁ : Heap A, Brings (fun q => h.heads (L ++ t :: u :: R) q ∨ q = t.bp)
      (fun p q => h.heads (L ++ t :: u :: R) q ∧ q ≠ t.bp ∨ q = p)
        (pure t.bp : HeapM A Nat) h₁ := by
    refine fun h₁ => .pure _ fun q hq => ?_
    by_cases hqt : q = t.bp
    · exact .inr hqt
    · exact .inl ⟨hq.resolve_right hqt, hqt⟩
  unfold fit
  refine .ite (fun hle => ?_) fun _ => ?_
  · obtain ⟨s', row', idx', hrun, -⟩ := shrink_laid hl ha h8 h32 hle hroom
    exact .heap_put hrun (.mono (hl.sound.shrink_brings hl.low_aligned ha h8 h32 hle) fun _ q hq =>
      or_assoc.mp hq) (hstay _)
  · rcases growInPlace_laid hl ha h8 h32 hroom with hrun | ⟨s', row', idx', total, -, hrun, -⟩
    · have hno : (liftM (Store.growInPlace h.bounds t.bp size) : HeapM A Bool) h = .ok false h := by
        rw [HeapM.lift_store, hrun]
      exact .step hno id
        (.ite (fun hyes => Bool.noConfusion hyes) fun _ => move_brings hl he request)
    · refine .heap_put hrun (.mono
        (hl.sound.growInPlace_brings hl.low_aligned ha h8 h32) fun _ q hq => or_assoc.mp hq) ?_
      exact .ite (fun _ => hstay _) fun hno => absurd rfl hno

theorem tryReallocate_brings {request : Nat} (hl : Laid h row idx) (he : e ∈ live row)
    (hn : request ≠ 0) :
    Brings (h.heads row) (fun a q => h.heads row q ∧ q ≠ e.bp ∨ a = some q)
      (tryReallocate e.bp request) h := by
  rw [tryReallocate_fit hn (live_ne_zero hl he)]
  refine .step (checkAddress_live hl he) id ?_
  rcases blockSize_cases request with hblock | ⟨size, hblock, h8, h32, hroom, -⟩
  · rw [hblock]
    exact .halt rfl
  obtain ⟨t, ht, -, hte, -⟩ := hl.tiled.mem_live.mp he
  have hsize : h.bounds.size e.bp h.store.memory = .ok e.size := hte ▸ hl.tiled.size ht
  rw [hblock]
  refine .step rfl id (.step hl.region id (.heap_look hsize ?_))
  rcases fit_spec hl he h8 h32 hroom with ⟨err, h', hfit, -⟩ | ⟨e', h', row', idx', hfit, hl', -⟩
  · exact .halt hfit
  refine .step hfit (fun hs => (fit_brings hl he h8 h32 hroom _ _ hfit hs).mono fun q hq =>
    hq.imp_right fun heq => congrArg some heq.symm) ?_
  refine .step (log_told _ _)
    (fun hs => hs.unchanged (same_told _ _).store (same_told _ _).bounds) ?_
  exact checked_brings (hl'.same (same_told _ _)) .reallocate
    (J := fun a q => h.heads row q ∧ q ≠ e.bp ∨ a = some q) (some e'.bp)

omit [LawfulArena A] in
theorem reallocate_some {addr request p : Nat}
    (hrun : reallocate addr request h = .ok (some p) h') :
    tryReallocate addr request h = .ok (some p) h' := by
  obtain ⟨answer, h₁, hattempt, hrun⟩ := HeapM.bind_ok.mp hrun
  rcases answer with (e | _ | _ | _) | new
  case ok =>
    cases hrun
    exact attempt_answer hattempt
  case error.invalidAddress =>
    obtain ⟨u, h₂, -, hrun⟩ := HeapM.bind_ok.mp hrun
    cases hrun
  all_goals cases hrun

/-- The plain operation releases a live block as the other does. -/
theorem tryRelease_of_release (hl : Laid h row idx) (he : e ∈ live row) {u : Unit}
    (hrun : release e.bp h = .ok u h') :
    tryRelease e.bp h = .ok () h' := by
  obtain ⟨h₁, -, -, hx, -, -⟩ := tryRelease_live hl he
  obtain ⟨-, rfl, hc⟩ := hx.release.inv hrun
  exact hx.run hc

theorem tryRelease_of_reallocate (hl : Laid h row idx) (he : e ∈ live row) {a : Option Nat}
    (hrun : reallocate e.bp 0 h = .ok a h') :
    tryRelease e.bp h = .ok () h' := by
  obtain ⟨h₁, -, -, hx, -, -⟩ := tryRelease_live hl he
  have hnone : Answers (tryReallocate e.bp 0) h none h₁ := hx.bind rfl
  obtain ⟨-, rfl, hc⟩ := hnone.reallocate.inv hrun
  exact hx.run hc

end Heap

/-! ## Runs -/

section Runs

variable {A : Type} [Arena A] [LawfulArena A] {w w' : World A} {h' : Heap A} {row : List Tile}
  {idx : Index} {call : Call} {answer : Answer}

/-- No word can be taken for the header of an allocated block but those of the blocks that the
    program holds, and the epilogue. What lies below the first block is never asked for. -/
def World.Unmistakable (w : World A) : Prop :=
  Headed (fun q => q < w.heap.firstBlock ∨ q ∈ w.holds) w.heap

/-- What a reallocation asks for. -/
theorem Call.reallocate_demand (addr size : Nat) :
    size = 0 ∧ (Call.tryReallocate addr size).demand = .drop addr ∨
    size ≠ 0 ∧ addr = 0 ∧ (Call.tryReallocate addr size).demand = .add size false ∨
    size ≠ 0 ∧ (Call.tryReallocate addr size).demand = .resize addr size := by
  by_cases hn : size = 0
  · exact .inl ⟨hn, if_pos hn⟩
  · by_cases h0 : addr = 0
    · exact .inr (.inl ⟨hn, h0, (if_neg hn).trans (if_pos h0)⟩)
    · exact .inr (.inr ⟨hn, (if_neg hn).trans (if_neg h0)⟩)

section Reallocations

variable {addr size a n : Nat} {zero : Bool} {bytes : List UInt8}

theorem Call.reallocate_add (hd : (Call.tryReallocate addr size).demand = .add n zero) :
    size ≠ 0 ∧ addr = 0 := by
  rcases Call.reallocate_demand addr size with ⟨-, h⟩ | ⟨hn, h0, -⟩ | ⟨-, h⟩
  · cases h.symm.trans hd
  · exact ⟨hn, h0⟩
  · cases h.symm.trans hd

theorem Call.reallocate_drop (hd : (Call.tryReallocate addr size).demand = .drop a) :
    size = 0 ∧ addr = a := by
  rcases Call.reallocate_demand addr size with ⟨hn, h⟩ | ⟨-, -, h⟩ | ⟨-, h⟩
  · exact ⟨hn, Demand.drop.inj (h.symm.trans hd)⟩
  · cases h.symm.trans hd
  · cases h.symm.trans hd

theorem Call.reallocate_resize (hd : (Call.tryReallocate addr size).demand = .resize a n) :
    size ≠ 0 ∧ addr = a := by
  rcases Call.reallocate_demand addr size with ⟨-, h⟩ | ⟨-, -, h⟩ | ⟨hn, h⟩
  · cases h.symm.trans hd
  · cases h.symm.trans hd
  · exact ⟨hn, (Demand.resize.inj (h.symm.trans hd)).1⟩

theorem Call.reallocate_write : (Call.tryReallocate addr size).demand ≠ .write a bytes := by
  intro hd
  rcases Call.reallocate_demand addr size with ⟨-, h⟩ | ⟨-, -, h⟩ | ⟨-, h⟩ <;> cases h.symm.trans hd

/-- Only a write asks for one. -/
theorem Call.demand_write (hd : call.demand = .write a bytes) : call = .store a bytes := by
  cases call with
  | store =>
    cases hd
    rfl
  | reallocate | tryReallocate => exact absurd hd Call.reallocate_write
  | allocate | zeroAllocate | tryZeroAllocate | release | tryRelease => cases hd

end Reallocations

namespace World.Sound

theorem unmistakable_iff (hw : w.Sound row idx) : w.Unmistakable ↔
    Headed (w.heap.heads row) w.heap := by
  have hheads : (fun q => q < w.heap.firstBlock ∨ q ∈ w.holds) = w.heap.heads row := by
    funext q
    exact propext (or_congr_right (hw.holds q))
  rw [Unmistakable, hheads]

/-- A call that answers with a new block. -/
theorem adds (hw : w.Sound row idx) {K : Nat → Prop} {n p : Nat} {zero : Bool}
    (hd : call.demand = .add n zero)
    (hrun : Heap.attempt call.perform w.heap = .ok (.ok (some p)) h') (hs : Headed K w.heap) :
    Headed (fun q => K q ∨ some p = some q) h' := by
  have hrun := Heap.attempt_answer hrun
  cases call with
  | allocate size => exact Heap.allocate_brings hw.laid size _ _ hrun hs
  | zeroAllocate count elemSize =>
    exact Heap.tryZeroAllocate_brings hw.laid count elemSize _ _ (Heap.zeroAllocate_some hrun) hs
  | tryZeroAllocate count elemSize =>
    exact Heap.tryZeroAllocate_brings hw.laid count elemSize _ _ hrun hs
  | reallocate addr size =>
    obtain ⟨hn, rfl⟩ := Call.reallocate_add hd
    exact Heap.tryReallocate_null_brings hw.laid hn _ _ (Heap.reallocate_some hrun) hs
  | tryReallocate addr size =>
    obtain ⟨hn, rfl⟩ := Call.reallocate_add hd
    exact Heap.tryReallocate_null_brings hw.laid hn _ _ hrun hs
  | release | tryRelease | store => cases hd

/-- A call that takes back a live block. -/
theorem drops (hw : w.Sound row idx) {K : Nat → Prop} {e : Entry} (he : e ∈ live row)
    (hd : call.demand = .drop e.bp) {a : Option Nat}
    (hrun : Heap.attempt call.perform w.heap = .ok (.ok a) h') (hs : Headed K w.heap) :
    Headed (fun q => K q ∧ q ≠ e.bp) h' := by
  have hrun := Heap.attempt_answer hrun
  have hrelease : Heap.tryRelease e.bp w.heap = .ok () h' := by
    cases call with
    | release addr =>
      cases hd
      obtain ⟨u, h₁, hrun, ⟨⟩⟩ := HeapM.bind_ok.mp hrun
      exact Heap.tryRelease_of_release hw.laid he hrun
    | tryRelease addr =>
      cases hd
      obtain ⟨u, h₁, hrun, ⟨⟩⟩ := HeapM.bind_ok.mp hrun
      exact hrun
    | reallocate addr size =>
      obtain ⟨rfl, rfl⟩ := Call.reallocate_drop hd
      exact Heap.tryRelease_of_reallocate hw.laid he hrun
    | tryReallocate addr size =>
      obtain ⟨rfl, rfl⟩ := Call.reallocate_drop hd
      obtain ⟨u, h₁, hrun, ⟨⟩⟩ := HeapM.bind_ok.mp hrun
      exact hrun
    | allocate | zeroAllocate | tryZeroAllocate | store => cases hd
  exact Heap.tryRelease_brings hw.laid he _ _ hrelease hs

/-- A call that gives a live block a new size. -/
theorem resizes (hw : w.Sound row idx) {e : Entry} (he : e ∈ live row) {n p : Nat}
    (hd : call.demand = .resize e.bp n)
    (hrun : Heap.attempt call.perform w.heap = .ok (.ok (some p)) h')
    (hs : Headed (w.heap.heads row) w.heap) :
    Headed (fun q => w.heap.heads row q ∧ q ≠ e.bp ∨ some p = some q) h' := by
  have hrun := Heap.attempt_answer hrun
  cases call with
  | reallocate addr size =>
    obtain ⟨hn, rfl⟩ := Call.reallocate_resize hd
    exact Heap.tryReallocate_brings hw.laid he hn _ _ (Heap.reallocate_some hrun) hs
  | tryReallocate addr size =>
    obtain ⟨hn, rfl⟩ := Call.reallocate_resize hd
    exact Heap.tryReallocate_brings hw.laid he hn _ _ hrun hs
  | allocate | zeroAllocate | tryZeroAllocate | release | tryRelease | store => cases hd

/-- As long as the program writes nothing that could be taken for one, headers stay unmistakable. -/
theorem unmistakable (hw : w.Sound row idx) (hm : w.Unmistakable) (heven : call.Even)
    (hs : w.Step call answer w') : w'.Unmistakable := by
  obtain ⟨row', idx', hw', ht⟩ := hw.step hs
  obtain ⟨hp, hrun⟩ := hs
  rw [hw.unmistakable_iff] at hm
  rw [hw'.unmistakable_iff]
  have hfirst := ht.later.firstBlock
  generalize hd : call.demand = d at ht
  show Headed (Heap.heads _ row') _
  simp only at hfirst ht
  cases ht with
  | still hsame =>
    exact (hm.unchanged hsame.store hsame.bounds).mono fun q hq =>
      hq.imp_left fun hlt => hfirst ▸ hlt
  | added ha =>
    refine (hw.adds hd hrun hm).mono fun q hq => ?_
    rcases hq with (hlt | ⟨f, hf, hq⟩) | heq
    · exact .inl (hfirst ▸ hlt)
    · exact .inr ⟨f, (ha.gained.mem f).mpr (.inr hf), hq⟩
    · exact .inr ⟨_, (ha.gained.mem _).mpr (.inl rfl), Option.some.inj heq⟩
  | dropped he hr =>
    refine (hw.drops he hd hrun hm).mono fun q hq => ?_
    rcases hq with ⟨hlt | ⟨f, hf, hq⟩, hne⟩
    · exact .inl (hfirst ▸ hlt)
    · refine .inr ⟨f, ?_, hq⟩
      rw [live_without hr.held, List.mem_filter, bne_iff_ne]
      exact ⟨hf, hq ▸ hne⟩
  | resized he hr =>
    refine (hw.resizes he hd hrun hm).mono fun q hq => ?_
    rcases hq with ⟨hlt | ⟨f, hf, hq⟩, hne⟩ | heq
    · exact .inl (hfirst ▸ hlt)
    · exact .inr
        ⟨f, (hr.swapped.mem f).mpr (.inr ⟨hf, fun hfe => hne (hq ▸ congrArg Entry.bp hfe)⟩), hq⟩
    · exact .inr ⟨_, (hr.swapped.mem _).mpr (.inl rfl), Option.some.inj heq⟩
  | @written e addr bytes he hle hlen hh' =>
    obtain rfl := Call.demand_write hd
    cases hh'
    refine (hm.withMemory fun a ha => Memory.odd_store heven ha).mono fun q hq => ?_
    exact hq.imp_left fun hlt => hfirst ▸ hlt

end World.Sound

/-- Above the four words of a new heap there is fresh memory. -/
theorem Heap.founded_odd {m : Memory} {start x : Nat}
    (hfresh : ∀ a, start ≤ a → a % 8 = 0 → m.word a % 2 = 0) (h8 : start % 8 = 0) (hx : x % 8 = 0)
    (hodd : (founded m start).word x % 2 = 1) : x + 8 ≤ start + 32 := by
  by_contra habove
  rw [founded, Memory.word_setWord_apart _ _ (by omega), Memory.word_setWord_apart _ _ (by omega),
    Memory.word_setWord_apart _ _ (by omega), Memory.word_setWord_apart _ _ (by omega),
    hfresh x (by omega) hx] at hodd
  cases hodd

/-- A new heap has no header but its own, if fresh memory has none. -/
theorem Heap.start_unmistakable {arena : A} {memory : Memory} {config : Config} {h : Heap A}
    (hs : LawfulArena.Sane arena)
    (hfresh : ∀ a, Arena.high arena ≤ a → a % 8 = 0 → memory.word a % 2 = 0)
    (hrun : Heap.start arena memory config = .ok () h) :
    (⟨h, ∅⟩ : World A).Unmistakable := by
  obtain ⟨start, a, b, h₁, hsite, hgrow, hcheck⟩ := start_inv hrun
  obtain ⟨rfl, -, hhigh, -⟩ := LawfulArena.extend_ok hs hsite.given
  have hl := hsite.laid hs.settles memory config #[]
  obtain ⟨hwords, h4⟩ := config.chunkWords_bounds
  obtain ⟨row, idx, hl', hlater, -⟩ := grow_epilogue hl hwords h4 hgrow
  obtain ⟨rfl, -⟩ := checkAfter_inv hl' hcheck
  have hfirst : h.firstBlock = Arena.high arena + 32 := hlater.firstBlock
  have hfour : Headed (fun q => q < Arena.high arena + 32)
      (⟨a, ⟨founded memory (Arena.high arena), .empty⟩, Arena.high arena + 16, config,
        #[]⟩ : Heap A) := by
    refine headed_heap.mpr fun x hx hodd => ?_
    have hle' := founded_odd hfresh hsite.aligned hx hodd
    by_cases hlast : x + 8 = Arena.high arena + 32
    · exact .inl (hlast.trans hhigh.symm)
    · exact .inr (Nat.lt_of_le_of_ne hle' hlast)
  exact (grow_brings hl hwords h4 _ _ hgrow hfour).mono fun q hq => .inl (hfirst ▸ hq)

/-- Where fresh memory sets bit 0 of no aligned word, and the program of none, no word can be
    taken for the header of a block that the program does not hold. -/
theorem Run.unmistakable {arena : A} {memory : Memory} {config : Config}
    {past : List (Call × Answer)} (hs : LawfulArena.Sane arena)
    (hfresh : ∀ a, Arena.high arena ≤ a → a % 8 = 0 → memory.word a % 2 = 0)
    (hr : Run arena memory config past w) (heven : ∀ c ∈ past, c.1.Even) : w.Unmistakable := by
  induction hr with
  | start hrun => exact Heap.start_unmistakable hs hfresh hrun
  | step hr hstep ih =>
    obtain ⟨row, idx, hw⟩ := hr.sound hs
    exact hw.unmistakable (ih fun c hc => heven c (List.mem_append_left _ hc))
      (heven _ List.mem_concat_self) hstep

end Runs

end BoundaryTag
