/-
  BoundaryTag.Proofs.Windows — a heap's operations keep to the heap's own bytes.

  The bytes of a heap begin with its padding word and end where its arena ends by then. Every
  operation stays within that window: it reads nothing below or above, so that it runs the same
  whatever is there, and it leaves what is there as it is. Between two calls only the heap's
  layout matters, and that can be told from within.

  Proved: so does every call that a program may make (`World.Sound.perform_within`).
-/

import BoundaryTag.Proofs.Footprint
import BoundaryTag.Proofs.Runs

namespace BoundaryTag

open Backed

/-! ## Bytes of payloads -/

namespace Memory

variable {lo hi a src dst count : Nat} {m m' : Memory} {bytes : List UInt8}

theorem Agree.store (h : Agree lo hi m m') : Agree lo hi (m.store a bytes) (m'.store a bytes) := by
  intro x h₁ h₂
  rw [byte_store, byte_store, h x h₁ h₂]

theorem agreeOff_store (h₁ : lo ≤ a) (h₂ : a + bytes.length ≤ hi) (m : Memory) :
    AgreeOff lo hi m (m.store a bytes) :=
  fun _ hx => byte_store_outside m (by omega)

theorem Agree.fill {b : UInt8} (h : Agree lo hi m m') :
    Agree lo hi (m.fill a b count) (m'.fill a b count) := by
  intro x h₁ h₂
  rw [byte_fill, byte_fill, h x h₁ h₂]

theorem agreeOff_fill {b : UInt8} (h₁ : lo ≤ a) (h₂ : a + count ≤ hi) (m : Memory) :
    AgreeOff lo hi m (m.fill a b count) :=
  fun _ hx => by rw [byte_fill, if_neg (by omega)]

/-- What is copied comes from the window. -/
theorem Agree.copy (h : Agree lo hi m m') (h₁ : lo ≤ src) (h₂ : src + count ≤ hi) :
    Agree lo hi (m.copy src dst count) (m'.copy src dst count) := by
  intro x hx₁ hx₂
  rw [byte_copy, byte_copy]
  by_cases hin : dst ≤ x ∧ x < dst + count
  · rw [if_pos hin, if_pos hin, h _ (by omega) (by omega)]
  · rw [if_neg hin, if_neg hin, h x hx₁ hx₂]

theorem agreeOff_copy (h₁ : lo ≤ dst) (h₂ : dst + count ≤ hi) (m : Memory) :
    AgreeOff lo hi m (m.copy src dst count) :=
  fun _ hx => by rw [byte_copy, if_neg (by omega)]

end Memory

/-! ## Steps on a heap -/

section Rules

variable {A α β : Type} [Arena A] {lo hi : Nat} {h : Heap A}

instance : Backed (Heap A) where
  memory h := h.store.memory
  top h := h.bounds.high
  upon := Heap.withMemory
  memory_upon _ _ := rfl
  upon_upon _ _ _ := rfl
  upon_memory _ := rfl

namespace Within

theorem heap_except (x : Except Fault α) : Within lo hi (liftM x : HeapM A α) h := by
  cases x <;> exact aside (Nat.le_refl _) rfl fun _ => rfl

theorem heap_reading {x : Reading α} (hx : h.bounds.high ≤ hi → Sees lo hi x h.store.memory) :
    Within lo hi (liftM x : HeapM A α) h := by
  refine .known ?_ fun hhi m hm => ?_
  · rw [HeapM.lift_reading]
    cases x h.store.memory <;> rfl
  · show (liftM x : HeapM A α) (h.withMemory m) = _
    have hsame : x (h.withMemory m).store.memory = x h.store.memory := hx hhi m hm
    rw [HeapM.lift_reading, HeapM.lift_reading, hsame]
    cases x h.store.memory <;> rfl

theorem heap_store {x : StoreM α} (hx : h.bounds.high ≤ hi → Within lo hi x h.store) :
    Within lo hi (liftM x : HeapM A α) h := by
  have htop : top (final ((liftM x : HeapM A α) h)) = h.bounds.high := by
    rw [HeapM.lift_store]
    cases x h.store <;> rfl
  have hmem : memory (final ((liftM x : HeapM A α) h)) = memory (final (x h.store)) := by
    rw [HeapM.lift_store]
    cases x h.store <;> rfl
  refine ⟨Nat.le_of_eq htop.symm, fun hhi m hm => ?_⟩
  obtain ⟨m', hrun, hagree, hoff⟩ := (hx (htop ▸ hhi)).stays (Nat.zero_le _) m hm
  refine ⟨m', ?_, hmem ▸ hagree, hoff⟩
  show (liftM x : HeapM A α) (h.withMemory m) = _
  have hrun : x (h.withMemory m).store = replaced m' (x h.store) := hrun
  rw [HeapM.lift_store, HeapM.lift_store, hrun]
  cases x h.store <;> rfl

theorem heap_writing {x : Writing α} (hx : h.bounds.high ≤ hi → Within lo hi x h.store.memory) :
    Within lo hi (liftM x : HeapM A α) h :=
  heap_store fun hhi => store_writing (hx hhi)

theorem region : Within lo hi (Heap.region : HeapM A Region) h :=
  .bind_get (fun _ => rfl) (heap_except _)

theorem emit (e : Event) : Within lo hi (Heap.emit e : HeapM A Unit) h :=
  aside (Nat.le_refl _) rfl fun _ => rfl

theorem log (e : Event) : Within lo hi (Heap.log e : HeapM A Unit) h :=
  .bind_get (fun _ => rfl) (.ite (fun _ => emit e) fun _ => .pure _ _)

theorem modifyMemory {g : Memory → Memory}
    (hg : h.bounds.high ≤ hi → ∀ m, h.store.memory.Agree lo hi m →
      (g h.store.memory).Agree lo hi (g m) ∧ m.AgreeOff lo hi (g m)) :
    Within lo hi (Heap.modifyMemory g : HeapM A Unit) h :=
  ⟨Nat.le_refl _, fun hhi m hm => ⟨g m, rfl, hg hhi m hm⟩⟩

theorem attempt {x : HeapM A α} (hx : Within lo hi x h) : Within lo hi (Heap.attempt x) h := by
  have hfinal : final (Heap.attempt x h) = final (x h) := by
    unfold Heap.attempt
    rcases x h with ⟨a, h'⟩ | ⟨e | f | ⟨op, c⟩, h'⟩ <;> rfl
  refine ⟨by rw [hfinal]; exact hx.rises, fun hhi m hm => ?_⟩
  obtain ⟨m', hrun, hagree, hoff⟩ := hx.stays (hfinal ▸ hhi) m hm
  refine ⟨m', ?_, by rw [hfinal]; exact hagree, hoff⟩
  unfold Heap.attempt
  rw [hrun]
  rcases x h with ⟨a, h'⟩ | ⟨e | f | ⟨op, c⟩, h'⟩ <;> rfl

/-- What is looked at is known. -/
theorem heap_look {x : Reading α} {f : α → HeapM A β} {a : α} (hrun : x h.store.memory = .ok a)
    (hx : h.bounds.high ≤ hi → Sees lo hi x h.store.memory) (hf : Within lo hi (f a) h) :
    Within lo hi (liftM x >>= f) h :=
  .step (by rw [HeapM.lift_reading, hrun]) (heap_reading hx) hf

/-- What is done to the store is known. -/
theorem heap_put {x : StoreM α} {f : α → HeapM A β} {a : α} {s : Store} (hrun : x h.store = .ok a s)
    (hx : h.bounds.high ≤ hi → Within lo hi x h.store)
    (hf : Within lo hi (f a) { h with store := s }) : Within lo hi (liftM x >>= f) h :=
  .step (by rw [HeapM.lift_store, hrun]) (heap_store hx) hf

theorem heap_write {x : Writing α} {f : α → HeapM A β} {a : α} {m : Memory}
    (hrun : x h.store.memory = .ok a m) (hx : h.bounds.high ≤ hi → Within lo hi x h.store.memory)
    (hf : Within lo hi (f a) (h.withMemory m)) : Within lo hi (liftM x >>= f) h :=
  .step (by rw [HeapM.lift_writing, hrun]; rfl) (heap_writing hx) hf

end Within

end Rules

namespace Heap

variable {A : Type} [Arena A] [LawfulArena A] {lo hi : Nat} {h : Heap A} {row L R : List Tile}
  {idx : Index} {t v : Tile} {e : Entry}

omit [Arena A] [LawfulArena A] in
theorem told_withMemory (h : Heap A) (m : Memory) (event : Event) :
    (h.withMemory m).told event = (h.told event).withMemory m := by
  unfold told
  rw [show (h.withMemory m).config = h.config from rfl]
  split <;> rfl

theorem claimOrTell_within (hs : LawfulArena.Sane h.arena) (bytes : Nat) :
    Within lo hi (claimOrTell bytes) h := by
  have hrun : ∀ m, claimOrTell bytes (h.withMemory m) = replaced m (claimOrTell bytes h) := by
    intro m
    rw [claimOrTell_apply, claimOrTell_apply, show (h.withMemory m).arena = h.arena from rfl]
    cases Arena.extend bytes h.arena with
    | ok => rfl
    | error e a =>
      exact congrArg (EStateM.Result.error _) (told_withMemory { h with arena := a } m _)
  rcases claimOrTell_cases hs bytes with ⟨a, hclaim, -, hhigh, -⟩ | ⟨err, h', hclaim, hsame⟩
  · refine .aside ?_ ?_ hrun
    · rw [hclaim]
      show h.bounds.high ≤ Arena.high a
      omega
    · rw [hclaim]
      rfl
  · refine .aside ?_ ?_ hrun
    · rw [hclaim]
      exact Nat.le_of_eq (congrArg Region.high hsame.bounds).symm
    · rw [hclaim]
      exact congrArg Store.memory hsame.store

/-! ## The layout -/

/-- A heap's layout can be told from the heap's own bytes. -/
theorem Laid.agree (hl : Laid h row idx) (hlo : lo + 32 ≤ h.firstBlock) (hhi : h.bounds.high ≤ hi)
    {m : Memory} (hm : h.store.memory.Agree lo hi m) : Laid (h.withMemory m) row idx := by
  have hlow := hl.tiled.low_le
  have hle := hl.tiled.row.le
  have hfirst : h.firstBlock = h.prologue + 16 := rfl
  refine ⟨⟨hl.sound.filed.agree (by omega) hhi hm, hl.sound.spaced⟩, hl.sane,
    hl.low_aligned, ?_, ?_⟩
  · show m.word (h.prologue - 8) = _
    rw [hm.word (by omega) (by omega), hl.header]
  · show m.word h.prologue = _
    rw [hm.word (by omega) (by omega), hl.footer]

/-- A live block lies between the first block and the high end. -/
theorem Laid.live_bounds (hl : Laid h row idx) (he : e ∈ live row) :
    h.firstBlock ≤ e.bp ∧ 32 ≤ e.size ∧ e.bp + e.size ≤ h.bounds.high := by
  obtain ⟨t, ht, -, rfl, h32⟩ := hl.tiled.mem_live.mp he
  exact ⟨hl.tiled.first_le ht, h32, (hl.tiled.within ht).2.2⟩

section Operations

variable (hl : Laid h row idx) (hlo : lo + 32 ≤ h.firstBlock)

include hl hlo

theorem checkAddress_within (addr : Nat) : Within lo hi (checkAddress addr) h := by
  refine .known ?_ fun hhi m hm => ?_
  · rcases checkAddress_cases hl addr with hrun | ⟨fault, hrun⟩
    all_goals
      rw [hrun]
      rfl
  · have hhi : h.bounds.high ≤ hi := hhi
    have hfirst : (h.withMemory m).firstBlock = h.firstBlock := rfl
    have hbounds : (h.withMemory m).bounds = h.bounds := rfl
    show checkAddress addr (h.withMemory m) = _
    rw [checkAddress_eq hl, checkAddress_eq (hl.agree hlo hhi hm), hfirst, hbounds]
    by_cases hin : addr < h.firstBlock ∨ h.bounds.high ≤ addr
    · rw [if_pos hin, if_pos hin]
      rfl
    · have htag : (h.withMemory m).tagAt addr = h.tagAt addr :=
        congrArg Tag.decode (hm.word (by omega) (by omega))
      rw [if_neg hin, if_neg hin, htag]
      split
      · rfl
      split <;> rfl

/-- A check passes or overflows, whatever lies around the heap. -/
theorem checkAfter_within (op : Operation) : Within lo hi (checkAfter op) h := by
  by_cases hc : h.Checkable
  · refine .known ?_ fun hhi m hm => ?_
    · rw [checkAfter_ok hl hc]
      rfl
    · rw [checkAfter_ok hl hc]
      exact checkAfter_ok (hl.agree hlo hhi hm) hc op
  · refine .known ?_ fun hhi m hm => ?_
    · rw [checkAfter_overflow hl hc]
      rfl
    · rw [checkAfter_overflow hl hc]
      exact checkAfter_overflow (hl.agree hlo hhi hm) hc op

/-! ## Allocating -/

theorem grow_within {words : Nat} (hw : words + 1 < wordLimit) (h4 : 4 ≤ words) :
    Within lo hi (grow words) h := by
  have hadd : checkedAdd words (words % 2) = .ok (words + words % 2) := checkedAdd_ok (by omega)
  have hle := hl.tiled.row.le
  have hlow := hl.tiled.low_le
  unfold grow
  refine .step (by rw [HeapM.lift_except, hadd]) (.heap_except _)
    (.ite (fun _ => .halt rfl (.throw _ _)) fun _ => ?_)
  rcases claimOrTell_cases hl.sane ((words + words % 2) * wordSize) with
    ⟨a, hclaim, hlow', hhigh', hlt, -⟩ | ⟨err, h', hclaim, -⟩
  · obtain ⟨h₁, hh₁⟩ : ∃ h₁ : Heap A, h₁ = { h with arena := a } := ⟨_, rfl⟩
    have hlow₁ : h₁.bounds.low = h.bounds.low := by rw [hh₁]; exact hlow'
    have hhigh₁ : h₁.bounds.high = h.bounds.high + (words + words % 2) * 8 := by
      rw [hh₁]
      exact hhigh'
    have hstore₁ : h₁.store = h.store := by rw [hh₁]
    have hlt₁ : h₁.bounds.high < wordLimit := by rw [hh₁]; exact hlt
    have hregion : region h₁ = .ok h₁.bounds h₁ :=
      region_eq (show h₁.bounds.low ≤ h₁.bounds.high by omega)
        (show h₁.bounds.low % 8 = 0 by rw [hlow₁]; exact hl.low_aligned)
    obtain ⟨L, q, rfl, -⟩ := hl.tiled.row.snoc
    obtain ⟨m₁, m₂, htag, hwrite₁, habove, hwrite₂, hfiled, -⟩ :=
      hl.sound.lengthen hlow₁ hhigh₁ (by omega) (by omega) hlt₁
    refine .step (hclaim.trans (by rw [hh₁])) (claimOrTell_within hl.sane _)
      (.step hregion .region ?_)
    refine .heap_look (hstore₁ ▸ htag) (fun hhi => sees_tag hhi (by omega)) ?_
    refine .heap_write (hstore₁ ▸ hwrite₁)
      (fun hhi => within_writeFree hhi (by omega) (by omega) _) ?_
    refine .heap_look habove (fun hhi => sees_above hhi (by omega)) ?_
    refine .heap_write hwrite₂ (fun hhi => within_writeAllocated hhi (by omega) _ _)
      (.step (log_told _ _) (.log _) (.heap_store fun hhi => ?_))
    have hsame := same_told ((h₁.withMemory m₁).withMemory m₂)
        (.extended ((words + words % 2) * wordSize) h₁.bounds.high)
    rw [hsame.bounds] at hhi
    rw [hsame.store,
      show ((h₁.withMemory m₁).withMemory m₂).store = ⟨m₂, h.store.buckets⟩ by rw [← hstore₁]; rfl]
    exact Filed.coalesce_within (t := ⟨h.bounds.high, ⟨(words + words % 2) * 8, q, false⟩⟩)
      (by omega) hhi hfiled rfl hl.sound.spaced_left
      fun _ hx => absurd hx List.not_mem_nil
  · exact .halt hclaim (claimOrTell_within hl.sane _)

omit hl in
theorem take_within (hl : Laid h (L ++ t :: v :: R) idx) (hfree : t.tag.alloc = false) {size : Nat}
    (h8 : size % 8 = 0) (h32 : 32 ≤ size) (hle : size ≤ t.tag.size) (request : Nat) (log : Bool) :
    Within lo hi (take request size t.bp log) h := by
  have ht := hl.tiled.first_le (t := t) (by simp)
  obtain ⟨s', row', idx', hrun, -⟩ := place_laid hl hfree h8 h32 hle
  refine .step hl.region .region (.heap_put hrun (fun hhi =>
    hl.sound.place_within (by omega) hhi hfree h8 h32 hle) (.ite (fun _ => ?_) fun _ => ?_))
  · exact .bind (.heap_reading fun hhi => sees_size hhi (by omega)) fun _ _ _ =>
      .bind (.emit _) fun _ _ _ => .pure _ _
  · exact .pure _ _

theorem allocateBlock_within (request : Nat) : Within lo hi (allocateBlock request) h := by
  unfold allocateBlock
  rcases blockSize_cases request with hblock | ⟨size, hblock, h8, h32, -, hmax⟩
  · rw [hblock]
    exact .halt rfl (.throw _ _)
  rw [hblock]
  refine .step rfl (.pure _ _) (.step hl.region .region (.bind_get (fun _ => rfl) ?_))
  have hfit := hl.sound.filed.files.findFit h32
  have hsees : h.bounds.high ≤ hi →
      Sees lo hi (h.store.buckets.findFit h.bounds size) h.store.memory :=
    fun hhi => hl.sound.filed.files.sees_findFit (hl.sound.filed.above (by omega)) hhi h32
  rcases hfind : idx.find size with _ | e
  · rw [hfind] at hfit
    refine .heap_look hfit hsees ?_
    obtain ⟨hlt, h4, -⟩ := growth_bounds h.config h32 hmax
    rcases hl.grown h8 h32 hmax with
      ⟨err, h', hgrow, -⟩ | ⟨L, t, v, R, idx₁, h₁, hgrow, hl₁, hlater, hfree, hle, -⟩
    · exact .halt hgrow (grow_within hl hlo hlt h4)
    · exact .step hgrow (grow_within hl hlo hlt h4)
        (take_within (by rw [hlater.firstBlock]; exact hlo) hl₁ hfree h8 h32 hle request _)
  · rw [hfind] at hfit
    refine .heap_look hfit hsees ?_
    obtain ⟨L, t, v, R, rfl, hfree, rfl, hle⟩ := hl.found hfind
    exact .step rfl (.pure _ _) (take_within hlo hl hfree h8 h32 hle request _)

theorem allocate_within (size : Nat) : Within lo hi (allocate size) h := by
  unfold allocate
  refine .ite (fun _ => .pure _ _) fun _ => ?_
  have hattempt : Within lo hi (Heap.attempt (allocateBlock size)) h :=
    .attempt (allocateBlock_within hl hlo size)
  rcases allocateBlock_spec hl size with ⟨err, h', hrun, -⟩ | ⟨e, h', row', idx', hrun, hl', ha⟩
  · exact .step (attempt_refused hrun) hattempt (.pure _ _)
  · refine .step (attempt_ok hrun) hattempt
      (.bind (checkAfter_within hl' ?_ _) fun _ _ _ => .pure _ _)
    rw [ha.later.firstBlock]
    exact hlo

/-- A new block is filled with zeros. -/
theorem tryZeroAllocate_within (count elemSize : Nat) :
    Within lo hi (tryZeroAllocate count elemSize) h := by
  unfold tryZeroAllocate
  refine .ite (fun _ => .bind (.log _) fun _ _ _ => .halt rfl (.throw _ _)) fun _ =>
    .ite (fun _ => .pure _ _) fun _ => ?_
  rcases allocateBlock_spec hl (count * elemSize) with
    ⟨err, h', hrun, -⟩ | ⟨e, h', row', idx', hrun, hl', ha⟩
  · exact .halt hrun (allocateBlock_within hl hlo _)
  · have hfirst := ha.later.firstBlock
    have hroom := ha.room
    obtain ⟨hle, -, hhigh⟩ := hl'.live_bounds ((ha.gained.mem e).mpr (.inl rfl))
    obtain ⟨hl'', ha''⟩ :=
      ha.withMemory hl' (m := h'.store.memory.fill e.bp 0 (count * elemSize)) fun x hx => by
      rw [Memory.byte_fill, if_neg fun hin => hx ⟨hin.1, by omega⟩]
    refine .step hrun (allocateBlock_within hl hlo _)
      (.step (modifyMemory_apply _ _) (.modifyMemory fun hhi m hm => ?_) ?_)
    · exact ⟨hm.fill, Memory.agreeOff_fill (by omega) (by omega) m⟩
    · refine .bind (checkAfter_within hl'' ?_ _) fun _ _ _ => .pure _ _
      rw [ha''.later.firstBlock]
      exact hlo

theorem zeroAllocate_within (count elemSize : Nat) : Within lo hi (zeroAllocate count elemSize) h :=
  .bind (.attempt (tryZeroAllocate_within hl hlo count elemSize)) fun answer _ _ => by
    cases answer <;> exact .pure _ _

/-! ## Releasing -/

theorem free_within (he : e ∈ live row) (hhi : h.bounds.high ≤ hi) :
    Within lo hi (Store.free h.bounds e.bp) h.store := by
  obtain ⟨t, ht, ha, rfl, h32⟩ := hl.tiled.mem_live.mp he
  obtain ⟨L, u, R, rfl⟩ := hl.tiled.row.split ht h32
  exact hl.sound.free_within (by omega) hhi ha

/-- An address is null, that of a live block, or turned down. -/
theorem tryRelease_within {addr : Nat}
    (hp : addr = 0 ∨ (∃ e ∈ live row, e.bp = addr) ∨ addr ≠ 0 ∧ h.Rejects addr) :
    Within lo hi (tryRelease addr) h := by
  unfold tryRelease
  refine .ite (fun _ => .pure _ _) fun h0 => ?_
  rcases hp with rfl | ⟨e, he, rfl⟩ | ⟨-, fault, hcheck⟩
  · exact absurd rfl h0
  · obtain ⟨s', row', idx', hrun, hl', hreleased⟩ := free_laid hl he
    have hbounds := hl.live_bounds he
    obtain ⟨t, ht, -, rfl, -⟩ := hl.tiled.mem_live.mp he
    refine .step (checkAddress_live hl he) (checkAddress_within hl hlo _)
      (.step hl.region .region ?_)
    refine .heap_look (hl.tiled.size ht)
      (fun hhi => sees_size hhi (by simp only [Tile.entry] at hbounds ⊢; omega)) ?_
    refine .heap_put hrun (free_within hl hlo he)
      (.step (log_told _ _) (.log _) (checkAfter_within (hl'.same (same_told _ _)) ?_ _))
    rw [(same_told _ _).later.firstBlock]
    exact hlo
  · exact .halt hcheck (checkAddress_within hl hlo _)

theorem release_within {addr : Nat}
    (hp : addr = 0 ∨ (∃ e ∈ live row, e.bp = addr) ∨ addr ≠ 0 ∧ h.Rejects addr) :
    Within lo hi (release addr) h := by
  refine .bind (.attempt (tryRelease_within hl hlo hp)) fun answer _ _ => ?_
  split
  · exact .log _
  · exact .pure _ _

/-! ## Reallocating -/

/-- What is copied comes from one payload and goes to another. -/
theorem move_within (he : e ∈ live row) (request : Nat) :
    Within lo hi (move e.bp e.size request) h := by
  unfold move
  rcases allocateBlock_spec hl request with ⟨err, h', hrun, -⟩ | ⟨e', h₁, row₁, idx₁, hrun, hl₁, ha⟩
  · exact .halt hrun (allocateBlock_within hl hlo request)
  have hfirst := ha.later.firstBlock
  have hroom := ha.room
  have he₁ : e ∈ live row₁ := (ha.gained.mem e).mpr (.inr he)
  obtain ⟨hle, h32, hhigh⟩ := hl₁.live_bounds he₁
  obtain ⟨hle', -, hhigh'⟩ := hl₁.live_bounds ((ha.gained.mem e').mpr (.inl rfl))
  obtain ⟨hl₂, ha₂⟩ := ha.withMemory hl₁
      (m := h₁.store.memory.copy e.bp e'.bp (min (e.size - wordSize) request)) fun x hx => by
    rw [Memory.byte_copy, if_neg fun hin => hx ⟨hin.1, by omega⟩]
  obtain ⟨s', row', idx', hfree, -⟩ := free_laid hl₂ he₁
  refine .step hrun (allocateBlock_within hl hlo request) (.step hl₁.region .region ?_)
  refine .step (modifyMemory_apply _ _) (.modifyMemory fun hhi m hm => ?_) ?_
  · simp only [wordSize]
    exact ⟨hm.copy (by omega) (by omega), Memory.agreeOff_copy (by omega) (by omega) m⟩
  · refine .heap_put hfree (free_within hl₂ ?_ he₁) (.pure _ _)
    rw [ha₂.later.firstBlock]
    exact hlo

theorem fit_within {size request : Nat} (he : e ∈ live row) (h8 : size % 8 = 0) (h32 : 32 ≤ size)
    (hroom : request + 8 ≤ size) :
    Within lo hi (fit h.bounds e.bp size e.size request) h := by
  obtain ⟨t, ht, ha, rfl, h32t⟩ := hl.tiled.mem_live.mp he
  obtain ⟨L, u, R, rfl⟩ := hl.tiled.row.split ht h32t
  unfold fit
  refine .ite (fun hle => ?_) fun _ => ?_
  · obtain ⟨s', row', idx', hrun, -⟩ := shrink_laid hl ha h8 h32 hle hroom
    exact .heap_put hrun
      (fun hhi => hl.sound.shrink_within (by omega) hhi ha h8 h32 hle) (.pure _ _)
  · have hgrow : h.bounds.high ≤ hi → Within lo hi (Store.growInPlace h.bounds t.bp size) h.store :=
      fun hhi => hl.sound.growInPlace_within (by omega) hhi ha h8 h32
    rcases growInPlace_laid hl ha h8 h32 hroom with hrun | ⟨s', row', idx', total, -, hrun, -⟩
    · exact .heap_put hrun hgrow (move_within hl hlo he request)
    · exact .heap_put hrun hgrow (.pure _ _)

theorem tryReallocate_within {addr : Nat}
    (hp : addr = 0 ∨ (∃ e ∈ live row, e.bp = addr) ∨ addr ≠ 0 ∧ h.Rejects addr) (request : Nat) :
    Within lo hi (tryReallocate addr request) h := by
  by_cases hn : request = 0
  · subst hn
    rw [tryReallocate_zero]
    exact .bind (tryRelease_within hl hlo hp) fun _ _ _ => .pure _ _
  rcases hp with rfl | ⟨e, he, rfl⟩ | ⟨h0, fault, hcheck⟩
  · have hnull : tryReallocate 0 request = (do
        let bp ← allocateBlock request
        checkAfter .reallocate
        return some bp : HeapM A (Option Nat)) := (if_neg hn).trans (if_pos rfl)
    rw [hnull]
    rcases allocateBlock_spec hl request with
      ⟨err, h', hrun, -⟩ | ⟨e, h', row', idx', hrun, hl', ha⟩
    · exact .halt hrun (allocateBlock_within hl hlo request)
    · refine .step hrun (allocateBlock_within hl hlo request)
        (.bind (checkAfter_within hl' ?_ _) fun _ _ _ => .pure _ _)
      rw [ha.later.firstBlock]
      exact hlo
  · rw [tryReallocate_fit hn (live_ne_zero hl he)]
    refine .step (checkAddress_live hl he) (checkAddress_within hl hlo _) ?_
    rcases blockSize_cases request with hblock | ⟨size, hblock, h8, h32, hroom, -⟩
    · rw [hblock]
      exact .halt rfl (.throw _ _)
    have hbounds := hl.live_bounds he
    obtain ⟨t, ht, -, hte, -⟩ := hl.tiled.mem_live.mp he
    have hsize : h.bounds.size e.bp h.store.memory = .ok e.size := hte ▸ hl.tiled.size ht
    rw [hblock]
    refine .step rfl (.pure _ _)
      (.step hl.region .region (.heap_look hsize (fun hhi => sees_size hhi (by omega)) ?_))
    rcases fit_spec hl he h8 h32 hroom with
      ⟨err, h', hfit, -⟩ | ⟨e', h', row', idx', hfit, hl', hresized⟩
    · exact .halt hfit (fit_within hl hlo he h8 h32 hroom)
    · refine .step hfit (fit_within hl hlo he h8 h32 hroom) (.step (log_told _ _) (.log _) ?_)
      refine .bind (checkAfter_within (hl'.same (same_told _ _)) ?_ _) fun _ _ _ => .pure _ _
      rw [(same_told _ _).later.firstBlock, hresized.later.firstBlock]
      exact hlo
  · rw [tryReallocate_fit hn h0]
    exact .halt hcheck (checkAddress_within hl hlo _)

theorem reallocate_within {addr : Nat}
    (hp : addr = 0 ∨ (∃ e ∈ live row, e.bp = addr) ∨ addr ≠ 0 ∧ h.Rejects addr) (request : Nat) :
    Within lo hi (reallocate addr request) h := by
  refine .bind (.attempt (tryReallocate_within hl hlo hp request)) fun answer _ _ => ?_
  split
  · exact .pure _ _
  · exact .bind (.log _) fun _ _ _ => .pure _ _
  · exact .pure _ _

end Operations

end Heap

/-- What a program may call keeps to the bytes of the heap. -/
theorem World.Sound.perform_within {A : Type} [Arena A] [LawfulArena A] {lo hi : Nat} {w : World A}
    {row : List Tile} {idx : Index} {call : Call} (hw : w.Sound row idx)
    (hlo : lo + 32 ≤ w.heap.firstBlock) (hp : w.Permits call) :
    Within lo hi call.perform w.heap := by
  cases call with
  | allocate size => exact Heap.allocate_within hw.laid hlo size
  | zeroAllocate count elemSize => exact Heap.zeroAllocate_within hw.laid hlo count elemSize
  | tryZeroAllocate count elemSize => exact Heap.tryZeroAllocate_within hw.laid hlo count elemSize
  | reallocate addr size => exact Heap.reallocate_within hw.laid hlo (hw.named hp) size
  | tryReallocate addr size => exact Heap.tryReallocate_within hw.laid hlo (hw.named hp) size
  | release addr =>
    exact .bind (Heap.release_within hw.laid hlo (hw.named hp)) fun _ _ _ => .pure _ _
  | tryRelease addr =>
    exact .bind (Heap.tryRelease_within hw.laid hlo (hw.named hp)) fun _ _ _ => .pure _ _
  | store addr bytes =>
    obtain ⟨e, he, hle, hlen⟩ := hw.store hp
    obtain ⟨hfirst, -, hhigh⟩ := hw.laid.live_bounds he
    refine .bind (.modifyMemory fun hhi m hm => ?_) fun _ _ _ => .pure _ _
    exact ⟨hm.store, Memory.agreeOff_store (by omega) (by omega) m⟩

end BoundaryTag
