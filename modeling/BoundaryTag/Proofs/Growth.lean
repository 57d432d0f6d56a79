/-
  BoundaryTag.Proofs.Growth — when a heap asks its arena for more, and for how much.

  Every free block is filed, under the class of its size, and the search passes none that
  fits. So the heap grows only if no free block fits, and then once, as what it grows by
  has room for the request.

  Proved: after any run, an allocation asks the arena for nothing if a free block fits;
  otherwise for one extension, by the least multiple of two words that has room for the block
  and for a chunk, and it fails if that fails. The address is that of the last block if that was
  free, and the old high end if not; all other blocks stay as they are (`Run.grows_for_need`).
  With checks on, there is no answer where only the last word of the address space is left
  (`Run.grown_unanswered`).
-/

import BoundaryTag.Proofs.Reuse
import BoundaryTag.Proofs.Watching

namespace BoundaryTag

/-- Where the new block of a growing heap starts: at its last block if that is free, else at its
    high end. -/
def frontier (ts : List Tile) (high : Nat) : Nat :=
  match ts.getLast? with
  | some t => if t.tag.alloc then high else t.bp
  | none => high

/-- The blocks from `b` up to the high end, when the first `size` bytes of them have been
    allocated. -/
def placed (b size high : Nat) : List Tile :=
  if 32 ≤ high - b - size then [⟨b, ⟨size, true, true⟩⟩, ⟨b + size, ⟨high - b - size, true, false⟩⟩]
  else [⟨b, ⟨high - b, true, true⟩⟩]

theorem Spans.getLast_alloc {a b : Nat} {p q : Bool} {ts : List Tile} {t : Tile}
    (h : Spans a p ts b q) (ht : ts.getLast? = some t) :
    t.tag.alloc = q := by
  obtain ⟨us, rfl⟩ := List.getLast?_eq_some_iff.mp ht
  obtain ⟨c, r, -, hspan⟩ := spans_append.mp h
  exact hspan.2.2.2.2.2

namespace Heap

variable {A : Type} [Arena A] [LawfulArena A] {g h h' : Heap A} {row : List Tile} {idx : Index}
  {request size b p : Nat} {e : Entry}

/-! ## One allocation -/

/-- What fits is found, and the arena is not asked. The heap can be checked as before. -/
theorem allocate_found (hl : Laid h row idx) (hc : h.Checkable) (hn : request ≠ 0)
    (hsize : blockSize request = .ok size) (hfind : idx.find size = some e) :
    ∃ h', allocate request h = .ok (some e.bp) h' ∧ h'.arena = h.arena := by
  obtain ⟨L, t, v, R, rfl, hfree, rfl, hle⟩ := hl.found hfind
  obtain ⟨h', row', idx', hrun, hl', hlater, harena, -⟩ :=
    take_carved hl hfree hsize hle h.config.logEvents
  have hanswers := Answers.allocate hn ((allocateBlock_found hl hsize hfind).trans hrun) hl'
  exact ⟨h', hanswers.run (hlater.checkable (by rw [bounds, bounds, harena]) hc), harena⟩

/-- The arena fails, and with it the allocation. -/
theorem allocate_denied (hl : Laid h row idx) (hn : request ≠ 0)
    (hsize : blockSize request = .ok size) (hfind : idx.find size = none) {err : ArenaError} {a : A}
    (hx : Arena.extend (stretch h.config size) h.arena = .error err a) :
    ∃ h', allocate request h = .ok none h' ∧ h'.arena = a := by
  obtain ⟨h', hgrow, -, harena⟩ := grow_refused hl hsize hx
  exact ⟨h', allocate_refused hn (allocateBlock_denied hl hsize hfind hgrow), harena⟩

/-- The new block starts at the frontier, and the blocks below it are those that were there. -/
theorem Grown.frontier_eq {X W : List Tile} {q : Bool} {idx' : Index}
    (hg : Grown h g row idx size b X W q idx') {ts : List Tile} {q' : Bool}
    (hl : Laid h (ts ++ [⟨h.bounds.high, ⟨0, q', true⟩⟩]) idx)
    (hrow : row = ts ++ [⟨h.bounds.high, ⟨0, q', true⟩⟩]) :
    b = frontier ts h.bounds.high ∧ X = ts.filter fun t => t.bp < b := by
  have hbelow : ∀ x ∈ X, x.bp < b := by
    intro x hx
    obtain ⟨hstop, h32⟩ := hg.laid.tiled.row.before hx
    simp only [Tile.stop, gap] at hstop
    omega
  have hX : X.filter (fun t => decide (t.bp < b)) = X := List.filter_eq_self.mpr fun x hx => by
    simpa using hbelow x hx
  obtain ⟨hts, hq⟩ := append_epilogue_inj (hrow.symm.trans hg.row_eq)
  subst hts hq
  rcases hg.below with ⟨rfl, rfl, rfl⟩ | ⟨w, rfl, hfree, rfl⟩
  · rw [List.append_nil] at hl ⊢
    refine ⟨?_, hX.symm⟩
    obtain ⟨c, x, hspan, hepilogue⟩ := Row.append_cons.mp hl.tiled.row
    unfold frontier
    cases hlast : X.getLast? with
    | none => rfl
    | some t =>
      rw [← hepilogue.head.2.1] at hspan
      simp only [hspan.getLast_alloc hlast, if_true]
  · refine ⟨?_, ?_⟩
    · simp [frontier, hfree]
    · rw [List.filter_append, hX]
      simp

/-- The arena gives what was asked of it, and the request is placed in the new block. -/
theorem allocate_grown {ts : List Tile} {q : Bool}
    (hl : Laid h (ts ++ [⟨h.bounds.high, ⟨0, q, true⟩⟩]) idx) (hn : request ≠ 0)
    (hsize : blockSize request = .ok size) (hfind : idx.find size = none) {start : Nat} {a : A}
    (hx : Arena.extend (stretch h.config size) h.arena = .ok start a) :
    ∃ h' q' idx', Answers (allocate request) h (some (frontier ts h.bounds.high)) h' ∧
      h'.arena = a ∧
      h'.config = h.config ∧ h'.bounds.high = h.bounds.high + stretch h.config size ∧
      Laid h' ((ts.filter fun t => t.bp < frontier ts h.bounds.high) ++
        placed (frontier ts h.bounds.high) size h'.bounds.high ++
        [⟨h'.bounds.high, ⟨0, q', true⟩⟩]) idx' := by
  obtain ⟨h8, h32, -, -⟩ := blockSize_ok hsize
  obtain ⟨b, g, X, W, q', idx₁, hgrow, harena, hg⟩ := grow_grown hl hsize hx
  obtain ⟨rfl, hX⟩ := hg.frontier_eq hl rfl
  obtain ⟨h', row', idx', hrun, hl', hlater, harena', hcarved⟩ :=
    take_carved hg.laid rfl hsize (hg.room hl h8) h.config.logEvents
  have hconfig : h'.config = h.config := hlater.config.trans hg.later.config
  have hhigh : h'.bounds.high = g.bounds.high := by rw [bounds, bounds, harena']
  have hans := Answers.allocate hn ((allocateBlock_grown hl hsize hfind hgrow).trans hrun) hl'
  rcases hcarved.exact hg.laid.sound rfl h32 with ⟨hsmall, hrow, -⟩ | ⟨hlarge, hrow, -⟩
  · refine ⟨h', true, idx', hans, harena'.trans harena, hconfig, hhigh.trans hg.high, ?_⟩
    have hsmall : g.bounds.high - frontier ts h.bounds.high - size < 32 := hsmall
    rw [placed, hhigh, if_neg (Nat.not_le.mpr hsmall), ← hX, List.append_assoc]
    rw [hrow] at hl'
    exact hl'
  · refine ⟨h', false, idx', hans, harena'.trans harena, hconfig, hhigh.trans hg.high, ?_⟩
    have hlarge : 32 ≤ g.bounds.high - frontier ts h.bounds.high - size := hlarge
    rw [placed, hhigh, if_pos hlarge, ← hX, List.append_assoc]
    rw [hrow] at hl'
    exact hl'

end Heap

variable {A : Type} [Arena A] [LawfulArena A] {w : World A}

/-- After any run, an allocation of at least one byte leaves the arena alone and is answered if
    a free block fits. If none does, the arena is asked once, for the least multiple of two
    words that is as much as the block and as a chunk. The allocation fails if that fails. Else
    the blocks below the frontier stay as they are, above it is the new block, and the
    allocation is answered with the frontier; unless calls are checked and the arena has but the
    last word of the address space left, where the check overflows. -/
theorem Run.grows_for_need {arena : A} {memory : Memory} {config : Config}
    {past : List (Call × Answer)} (hs : LawfulArena.Sane arena)
    (hr : Run arena memory config past w) {n size : Nat} (hn : 1 ≤ n)
    (hsize : blockSize n = .ok size) :
    ∃ ts q idx bytes, w.heap.WellFormed ts q idx ∧
      (bytes % 16 = 0 ∧ max size (w.heap.config.chunkWords * 8) ≤ bytes ∧
        ∀ m, m % 16 = 0 → max size (w.heap.config.chunkWords * 8) ≤ m → bytes ≤ m) ∧
      ((∃ t ∈ ts, t.tag.alloc = false ∧ size ≤ t.tag.size) → ∃ p g,
        Heap.allocate n w.heap.watched = .ok (some p) g ∧
        Heap.allocate n w.heap = .ok (some p) g.unwatched ∧
          g.arena = ⟨w.heap.arena, []⟩) ∧
      ((∀ t ∈ ts, t.tag.alloc = false → t.tag.size < size) →
        (∀ e a, Arena.extend bytes w.heap.arena = .error e a →
          ∃ g, Heap.allocate n w.heap.watched = .ok none g ∧
          Heap.allocate n w.heap = .ok none g.unwatched ∧ g.arena = ⟨a, [bytes]⟩) ∧
        ∀ start a, Arena.extend bytes w.heap.arena = .ok start a →
          ∃ p g q' idx', p = frontier ts w.heap.bounds.high ∧ g.arena = ⟨a, [bytes]⟩ ∧
            g.bounds.high = w.heap.bounds.high + bytes ∧
            g.unwatched.WellFormed
              ((ts.filter fun t => t.bp < p) ++ placed p size g.bounds.high) q' idx' ∧
            ((w.heap.config.checkEachOp = true → g.bounds.high + wordSize < wordLimit) →
              Heap.allocate n w.heap.watched = .ok (some p) g ∧
              Heap.allocate n w.heap = .ok (some p) g.unwatched) ∧
            (w.heap.config.checkEachOp = true → wordLimit ≤ g.bounds.high + wordSize →
              Heap.allocate n w.heap.watched = .error (.fault .overflow) g ∧
                Heap.allocate n w.heap = .error (.fault .overflow) g.unwatched)) := by
  obtain ⟨row, idx, hw⟩ := hr.sound hs
  obtain ⟨ts, q, rfl, hwell⟩ := hw.laid.readOff
  have hl := hw.laid.watched
  have hn : n ≠ 0 := by omega
  have hunseen : Heap.Unseen (Heap.allocate n) (Heap.allocate n : HeapM A (Option Nat)) :=
    .allocate n
  refine ⟨ts, q, idx, Heap.stretch w.heap.config size, hwell,
    Heap.stretch_least _ (Heap.blockSize_ok hsize).1, ?_, ?_⟩
  · rintro ⟨t, ht, hfree, hle⟩
    cases hfind : idx.find size with
    | none => exact absurd hle (Nat.not_le.mpr (hl.find_none_iff.mp hfind t (by simp [ht]) hfree))
    | some e =>
      obtain ⟨g, hrun, harena⟩ := Heap.allocate_found hl hw.checkable hn hsize hfind
      exact ⟨e.bp, g, hrun, hunseen.run hrun, harena⟩
  · intro hsmall
    have hfind : idx.find size = none := by
      refine hl.find_none_iff.mpr fun t ht hfree => ?_
      rcases List.mem_append.mp ht with ht | ht
      · exact hsmall t ht hfree
      · rw [List.mem_singleton.mp ht] at hfree
        cases hfree
    constructor
    · intro e a hx
      have hasked : Arena.extend (Heap.stretch w.heap.config size) w.heap.watched.arena =
          .error e ⟨a, [Heap.stretch w.heap.config size]⟩ := by
        rw [Watched.extend_apply]
        exact hx ▸ rfl
      obtain ⟨g, hrun, harena⟩ := Heap.allocate_denied hl hn hsize hfind hasked
      exact ⟨g, hrun, hunseen.run hrun, harena⟩
    · intro start a hx
      have hasked : Arena.extend (Heap.stretch w.heap.config size) w.heap.watched.arena =
          .ok start ⟨a, [Heap.stretch w.heap.config size]⟩ := by
        rw [Watched.extend_apply]
        exact hx ▸ rfl
      obtain ⟨g, q', idx', hanswers, harena, hconfig, hhigh, hl'⟩ :=
        Heap.allocate_grown hl hn hsize hfind hasked
      obtain ⟨ts', q'', hrow, hwell'⟩ := hl'.unwatched.readOff
      obtain ⟨rfl, rfl⟩ := append_epilogue_inj hrow
      refine ⟨_, g, _, idx', rfl, harena, hhigh, hwell', fun hroom => ?_, fun hchecks hend => ?_⟩
      · have hrun := hanswers.run fun hchecks => hroom (hconfig ▸ hchecks)
        exact ⟨hrun, hunseen.run hrun⟩
      · have hrun := hanswers.halt (Heap.not_checkable_iff.mpr ⟨hconfig ▸ hchecks, hend⟩)
        exact ⟨hrun, hunseen.run hrun⟩

/-- The answer to a request, and what the arena has been asked for then. -/
def Heap.allocateAsking {A : Type} [Arena A] (size : Nat) :
    HeapM (Watched A) (Option Nat × List Nat) := do
  let p ← allocate size
  let h ← get
  return (p, h.arena.asked)

/-- No free block has 312 bytes. The last one, of 176 bytes, and 320 bytes more are enough. -/
theorem Run.grows_for_need_page : ∃ w ts g q' idx',
    Run page .blank {} [(.allocate 24, .ok (some 4128)), (.allocate 40, .ok (some 4160)),
      (.release 4128, .ok none)] w ∧
      Heap.allocate 300 w.heap.watched = .ok (some 4208) g ∧ g.arena.asked = [320] ∧
      frontier ts 4384 = 4208 ∧
      g.unwatched.WellFormed
        ((ts.filter fun t => t.bp < 4208) ++ placed 4208 312 4704) q' idx' := by
  obtain ⟨w, hr, -, hlook⟩ :=
    Run.of_trial page .blank {} [.allocate 24, .allocate 40, .release 4128]
    [.ok (some 4128), .ok (some 4160), .ok none]
    (fun h => (Heap.answer? (Heap.allocateAsking 300) h.watched, h.bounds.high,
      h.config.checkEachOp))
    (some (some 4208, [320]), 4384, false) (by decide +kernel) (by decide +kernel)
  obtain ⟨hanswer, hlook⟩ := Prod.mk.inj hlook
  obtain ⟨hhigh, hcheck⟩ := Prod.mk.inj hlook
  obtain ⟨h, hanswer⟩ := Heap.answer_some hanswer
  obtain ⟨p, h₁, hrun, hrest⟩ := HeapM.bind_ok.mp hanswer
  obtain ⟨_, _, ⟨⟩, hlast⟩ := HeapM.bind_ok.mp hrest
  obtain ⟨rfl, hasked⟩ := Prod.mk.inj (EStateM.Result.ok.inj hlast).1
  have hsize : blockSize 300 = .ok 312 := rfl
  obtain ⟨ts, q, idx, bytes, -, -, hfit, hsmall⟩ :=
    Run.grows_for_need (A := FixedArena) trivial hr (by decide) hsize
  by_cases hany : ∃ t ∈ ts, t.tag.alloc = false ∧ 312 ≤ t.tag.size
  · obtain ⟨p, g, hfound, -, harena⟩ := hfit hany
    rw [hrun] at hfound
    cases hfound
    rw [show h₁.arena.asked = [] from congrArg Watched.asked harena] at hasked
    cases hasked
  · obtain ⟨hdenied, hgrown⟩ := hsmall fun t ht hfree => Nat.lt_of_not_le fun hle =>
      hany ⟨t, ht, hfree, hle⟩
    rcases hx : Arena.extend bytes w.heap.arena with ⟨start, a⟩ | ⟨e, a⟩
    · obtain ⟨p, g, q', idx', hp, harena, hup, hwell, hanswered, -⟩ := hgrown start a hx
      obtain ⟨hgrow, -⟩ := hanswered fun hchecks => by rw [hcheck] at hchecks; cases hchecks
      rw [hrun] at hgrow
      cases hgrow
      have hasked : h₁.arena.asked = [320] := hasked
      obtain rfl : bytes = 320 := by simpa [harena] using hasked
      rw [hup, hhigh] at hwell
      rw [hhigh] at hp
      exact ⟨w, ts, h₁, q', idx', hr, hrun, hasked, hp.symm, hwell⟩
    · obtain ⟨g, hnone, -⟩ := hdenied e a hx
      rw [hnone] at hrun
      cases hrun

/-- What stopped a request, if it was stopped, and what the arena had been asked for by then. -/
def Heap.stopAsking {A : Type} [Arena A] (size : Nat) (h : Heap (Watched A)) :
    Option (Stop × List Nat) :=
  match allocate size h with
  | .ok .. => none
  | .error stop g => some (stop, g.arena.asked)

/-- The arena gives the 320 bytes that it is asked for, and the allocation has no answer. -/
theorem Run.grown_unanswered : ∃ w g start a, Run brink .blank { checkEachOp := true } [] w ∧
    Arena.extend 320 w.heap.arena = .ok start a ∧ g.arena.asked = [320] ∧
    Heap.allocate 300 w.heap.watched = .error (.fault .overflow) g ∧
    Heap.allocate 300 w.heap = .error (.fault .overflow) g.unwatched := by
  obtain ⟨w, hr, -, hlook⟩ := Run.of_trial brink .blank { checkEachOp := true } [] []
    (fun h => (Heap.stopAsking 300 h.watched, (Heap.answer? (Heap.claim 320) h).isSome))
    (some (.fault .overflow, [320]), true) (by decide +kernel) (by decide +kernel)
  obtain ⟨hstop, hclaim⟩ := Prod.mk.inj hlook
  obtain ⟨start, hclaim⟩ := Option.isSome_iff_exists.mp hclaim
  obtain ⟨h, hclaim⟩ := Heap.answer_some hclaim
  obtain ⟨a, hx, -⟩ := Heap.claim_ok hclaim
  unfold Heap.stopAsking at hstop
  rcases hrun : Heap.allocate 300 w.heap.watched with ⟨p, g⟩ | ⟨stop, g⟩
  · rw [hrun] at hstop
    cases hstop
  · rw [hrun] at hstop
    obtain ⟨rfl, hasked⟩ := Prod.mk.inj (Option.some.inj hstop)
    exact ⟨w, g, start, a, hr, hx, hasked, hrun, (Heap.Unseen.allocate 300).run hrun⟩

end BoundaryTag
