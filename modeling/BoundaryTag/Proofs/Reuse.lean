/-
  BoundaryTag.Proofs.Reuse — what is allocated and at once released leaves no trace.

  The block that a request was placed in is merged again from its parts, and filed before the
  blocks of its size. That is where it was, as the search takes the first block that fits; in an
  exact class, where blocks are filed at the head, it was the head. A block that the arena had
  to grow for was filed when it grew.

  Proved: after any run, a release right after an allocation restores the blocks, the free lists
  and their links, to what they were before or to what growing had made of them; and the same
  request is answered with the same address again (`Run.allocate_release`).
-/

import BoundaryTag.Proofs.ReleaseOrder
import BoundaryTag.Proofs.Serving

namespace BoundaryTag

namespace Heap

variable {A : Type} [Arena A]

/-- The heap `h` has the blocks and the free lists of `g`, down to the words that they are kept
    in. -/
structure Restored (g h : Heap A) : Prop where
  prologue : h.prologue = g.prologue
  bounds : h.bounds = g.bounds
  /-- The same blocks with the same flags, and in every bucket the same blocks in the same order. -/
  shape : ∃ ts q idx, g.WellFormed ts q idx ∧ h.WellFormed ts q idx
  heads : ∀ c, h.store.buckets.head c = g.store.buckets.head c
  links : ∀ c bps, g.store.buckets.members g.bounds c g.store.memory = .ok bps → ∀ bp ∈ bps,
    h.store.memory.word bp = g.store.memory.word bp ∧
    h.store.memory.word (bp + 8) = g.store.memory.word (bp + 8)

variable [LawfulArena A] {g h h₁ : Heap A} {row : List Tile} {idx : Index} {e : Entry}
  {request size p : Nat} {log : Bool}

/-- Row and index determine all of it. -/
theorem Laid.restored (hg : Laid g row idx) (hh : Laid h row idx)
    (hprologue : h.prologue = g.prologue) (hbounds : h.bounds = g.bounds) :
    Restored g h := by
  have hfiles := hg.sound.filed.files
  have hfiles' := hh.sound.filed.files
  refine ⟨hprologue, hbounds, ?_, fun c => (hfiles'.heads c).trans (hfiles.heads c).symm, ?_⟩
  · obtain ⟨ts, q, hrow, hwell⟩ := hg.readOff
    obtain ⟨ts', q', hrow', hwell'⟩ := hh.readOff
    obtain ⟨hts, hq⟩ := append_epilogue_inj (hrow.symm.trans hrow')
    subst hts hq
    exact ⟨ts, q, idx, hwell, hwell'⟩
  · intro c bps hbps bp hbp
    rw [hfiles.members] at hbps
    obtain rfl := Except.ok.inj hbps
    obtain ⟨e, he, rfl⟩ := List.mem_map.mp hbp
    have hthreaded := hfiles'.threaded c
    rw [hbounds] at hthreaded
    exact (hfiles.threaded c).word_eq hthreaded e he

/-- A request that is served from the heap `g` is answered, and releasing the answer restores
    `g`. -/
theorem Laid.serves (hl : Laid g row idx) (hn : request ≠ 0) (hsize : blockSize request = .ok size)
    (hfind : idx.find size = some e) (hset : idx.Settled e)
    (hrun : allocateBlock request h = take request size e.bp log g) :
    ∃ h₁, Answers (allocate request) h (some e.bp) h₁ ∧ h₁.bounds = g.bounds ∧
      (h₁.Checkable → ∃ h₂ h₃, release e.bp h₁ = .ok () h₂ ∧ Restored g h₂ ∧
        allocate request h₂ = .ok (some e.bp) h₃) := by
  obtain ⟨L, t, v, R, rfl, hfree, rfl, hle⟩ := hl.found hfind
  obtain ⟨h₁, row₁, idx₁, h₂, htake, hl₁, harena₁, hlater₁, hrelease, hl₂, harena₂, hlater₂⟩ :=
    take_release hl hfree hsize hle hset log
  have hbounds₁ : h₁.bounds = g.bounds := by rw [bounds, bounds, harena₁]
  have hbounds₂ : h₂.bounds = g.bounds := by rw [bounds, bounds, harena₂]
  refine ⟨h₁, .allocate hn (hrun.trans htake) hl₁, hbounds₁, ?_⟩
  intro hc
  have hc₂ : h₂.Checkable := fun hcheck => by
    rw [hbounds₂, ← hbounds₁]
    exact hc (by rw [hlater₁.config, ← hlater₂.config, hcheck])
  -- the search finds the block again
  obtain ⟨h₃, row₃, idx₃, htake₃, hl₃, hlater₃, harena₃, -⟩ :=
    take_carved hl₂ hfree hsize hle h₂.config.logEvents
  have hc₃ : h₃.Checkable := hlater₃.checkable (by rw [bounds, bounds, harena₃]) hc₂
  have hagain : allocateBlock request h₂ = .ok t.bp h₃ :=
    (allocateBlock_found hl₂ hsize hfind).trans htake₃
  exact ⟨h₂, h₃, hrelease.run hc₂, hl.restored hl₂ hlater₂.prologue hbounds₂,
    (Answers.allocate hn hagain hl₃).run hc₃⟩

omit [LawfulArena A] in
theorem allocate_zero (h : Heap A) : allocate 0 h = .ok none h := rfl

omit [LawfulArena A] in
theorem allocate_refused (hn : request ≠ 0) {err : HeapError}
    (hrun : allocateBlock request h = .error (.refused err) h₁) :
    allocate request h = .ok none h₁ := by
  simp only [allocate, hn, if_false, HeapM.bind_apply, attempt_refused hrun]
  rfl

omit [LawfulArena A] in
/-- An answered request has a size that counts. -/
theorem allocate_some (hrun : allocate request h = .ok (some p) h₁) :
    request ≠ 0 ∧ ∃ size, blockSize request = .ok size := by
  have hn : request ≠ 0 := by
    intro h0
    rw [h0, allocate_zero] at hrun
    cases hrun
  refine ⟨hn, ?_⟩
  rcases blockSize_cases request with hblock | ⟨size, hblock, -⟩
  · have hrefused : allocateBlock request h = .error (.refused (.requestTooLarge request)) h := by
      simp only [allocateBlock, HeapM.bind_apply, hblock, refuse_apply]
    rw [allocate_refused hn hrefused] at hrun
    cases hrun
  · exact ⟨size, hblock⟩

end Heap

variable {A : Type} [Arena A] [LawfulArena A] {w : World A}

/-- After any run, when an allocation is answered with `p`, releasing `p` at once restores the
    heap, to what it was before the allocation if the arena did not grow for it, and else to
    what it was when the new bytes had been merged and filed. Then the same request is
    answered with `p` again. -/
theorem Run.allocate_release {arena : A} {memory : Memory} {config : Config}
    {past : List (Call × Answer)} (hs : LawfulArena.Sane arena)
    (hr : Run arena memory config past w) {n p : Nat} {h₁ : Heap A}
    (hrun : Heap.allocate n w.heap = .ok (some p) h₁) :
    ∃ g h₂ h₃,
      (g = w.heap ∧ h₁.bounds = w.heap.bounds ∨ w.heap.bounds.high < h₁.bounds.high ∧
        ∃ size b, blockSize n = .ok size ∧
        Heap.grow (Heap.growth w.heap.config size) w.heap = .ok b g) ∧
      Heap.release p h₁ = .ok () h₂ ∧ g.Restored h₂ ∧ Heap.allocate n h₂ = .ok (some p) h₃ := by
  obtain ⟨row, idx, hw⟩ := hr.sound hs
  have hl := hw.laid
  obtain ⟨hn, size, hsize⟩ := Heap.allocate_some hrun
  cases hfind : idx.find size with
  | some e =>
    obtain ⟨h', hanswers, hbounds, hback⟩ :=
      hl.serves hn hsize hfind (hl.settled hfind) (Heap.allocateBlock_found hl hsize hfind)
    obtain ⟨hp, rfl, hc⟩ := hanswers.inv hrun
    obtain rfl := Option.some.inj hp
    obtain ⟨h₂, h₃, hrelease, hrestored, hagain⟩ := hback hc
    exact ⟨w.heap, h₂, h₃, .inl ⟨rfl, hbounds⟩, hrelease, hrestored, hagain⟩
  | none =>
    rcases hx : Arena.extend (Heap.stretch w.heap.config size) w.heap.arena with
      ⟨start, a⟩ | ⟨err, a⟩
    · obtain ⟨b, g, X, W, q, idx', hgrow, -, hg⟩ := Heap.grow_grown hl hsize hx
      have hset : idx'.Settled (gap b g.bounds.high).entry := by
        have hnodup := hg.laid.sound.filed.files.nodup
        rw [hg.index] at hnodup ⊢
        exact Index.settled_insert (hnodup _)
      obtain ⟨h', hanswers, hbounds, hback⟩ :=
        hg.laid.serves hn hsize (hg.find hl (Heap.blockSize_ok hsize).1 hfind) hset
        (Heap.allocateBlock_grown hl hsize hfind hgrow)
      obtain ⟨hp, rfl, hc⟩ := hanswers.inv hrun
      obtain rfl := Option.some.inj hp
      obtain ⟨h₂, h₃, hrelease, hrestored, hagain⟩ := hback hc
      refine ⟨g, h₂, h₃, .inr ⟨?_, size, _, hsize, hgrow⟩, hrelease, hrestored, hagain⟩
      have hroom := (Heap.stretch_least w.heap.config (Heap.blockSize_ok hsize).1).2.1
      have h32 := (Heap.blockSize_ok hsize).2.1
      rw [hbounds, hg.high]
      omega
    · obtain ⟨g, hgrow, -⟩ := Heap.grow_refused hl hsize hx
      rw [Heap.allocate_refused hn (Heap.allocateBlock_denied hl hsize hfind hgrow)] at hrun
      cases hrun

/-- The answer to a request, and the high end then. -/
def Heap.allocatedUpTo {A : Type} [Arena A] (size : Nat) : HeapM A (Option Nat × Nat) := do
  let p ← allocate size
  let h ← get
  return (p, h.bounds.high)

/-- The page grows for a block that begins with what was free at its end. -/
theorem Run.allocate_release_page : ∃ w g h₁ h₂ h₃,
    Run page .blank {} [(.allocate 24, .ok (some 4128)), (.allocate 40, .ok (some 4160)),
      (.release 4128, .ok none)] w ∧
      Heap.allocate 300 w.heap = .ok (some 4208) h₁ ∧ Heap.grow 39 w.heap = .ok 4208 g ∧
      Heap.release 4208 h₁ = .ok () h₂ ∧ g.Restored h₂ ∧
      Heap.allocate 300 h₂ = .ok (some 4208) h₃ := by
  obtain ⟨w, hr, -, hlook⟩ :=
    Run.of_trial page .blank {} [.allocate 24, .allocate 40, .release 4128]
    [.ok (some 4128), .ok (some 4160), .ok none]
    (fun h => (Heap.answer? (Heap.allocatedUpTo 300) h, Heap.answer? (Heap.grow 39) h,
      h.bounds.high, Heap.growth h.config 312))
    (some (some 4208, 4704), some 4208, 4384, 39) (by decide +kernel) (by decide +kernel)
  obtain ⟨hanswer, hlook⟩ := Prod.mk.inj hlook
  obtain ⟨hgrow, hlook⟩ := Prod.mk.inj hlook
  obtain ⟨hhigh, hwords⟩ := Prod.mk.inj hlook
  obtain ⟨h, hanswer⟩ := Heap.answer_some hanswer
  obtain ⟨p, h₁, hrun, hrest⟩ := HeapM.bind_ok.mp hanswer
  obtain ⟨_, _, ⟨⟩, hlast⟩ := HeapM.bind_ok.mp hrest
  obtain ⟨rfl, hhigh₁⟩ := Prod.mk.inj (EStateM.Result.ok.inj hlast).1
  obtain ⟨g, h₂, h₃, hgrew, hrelease, hrestored, hagain⟩ :=
    Run.allocate_release (A := FixedArena) trivial hr hrun
  rcases hgrew with ⟨-, hbounds⟩ | ⟨-, size, b, hsize, hgrown⟩
  · rw [hbounds, hhigh] at hhigh₁
    exact absurd hhigh₁ (by decide)
  · obtain rfl : 312 = size := Except.ok.inj hsize
    rw [hwords] at hgrown
    obtain ⟨g', hgrow⟩ := Heap.answer_some hgrow
    rw [hgrown] at hgrow
    obtain ⟨rfl, -⟩ := EStateM.Result.ok.inj hgrow
    exact ⟨w, g, h₁, h₂, h₃, hr, hrun, hgrown, hrelease, hrestored, hagain⟩

end BoundaryTag
