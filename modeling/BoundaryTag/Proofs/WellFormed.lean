/-
  BoundaryTag.Proofs.WellFormed — a heap read off its memory, whatever was done to it before.

  `WellFormed` names the blocks of a heap and its free lists, and says which words have to be in
  memory for that and what the heap's own walks then find.

  Proved: every heap that a run reaches is well-formed, and its allocated blocks are those that
  the program holds (`Run.wellFormed`).
-/

import BoundaryTag.Proofs.Runs

namespace BoundaryTag

variable {A : Type} [Arena A]

/-- The heap has the blocks `ts`, an epilogue whose predecessor is allocated if `q`,
    and the free lists `idx`. -/
structure Heap.WellFormed (h : Heap A) (ts : List Tile) (q : Bool) (idx : Index) : Prop where
  /-- The blocks lie back to back from the first one up to the epilogue, in sizes of whole words
      and at least the least one, and each knows whether its predecessor is allocated. That of
      the first is the prologue. -/
  tiles : Spans h.firstBlock true ts h.bounds.high q
  headers : ∀ t ∈ ts, h.store.memory.word (t.bp - 8) = t.tag.encode
  epilogue : h.store.memory.word (h.bounds.high - 8) = Tag.encode ⟨0, q, true⟩
  prologue : h.store.memory.word (h.prologue - 8) = Tag.encode ⟨16, true, true⟩ ∧
    h.store.memory.word h.prologue = Tag.encode ⟨16, true, true⟩
  footers : ∀ t ∈ ts, t.tag.alloc = false →
  h.store.memory.word (t.stop - 16) = h.store.memory.word (t.bp - 8)
  merged : ts.IsChain fun t u => t.tag.alloc = true ∨ u.tag.alloc = true
  /-- Following the next links from the head of a bucket ends, and finds its list. -/
  members : ∀ c, h.store.buckets.members h.bounds c h.store.memory = .ok ((idx c).map Entry.bp)
  nodup : ∀ c, ((idx c).map Entry.bp).Nodup
  /-- Every member's links name the members before and behind it. -/
  links : ∀ c pre e post, idx c = pre ++ e :: post →
    h.bounds.links e.bp h.store.memory = .ok ⟨firstOr post none, lastOr none pre⟩
  /-- A bucket has just the free blocks of its class. -/
  filed : ∀ c e, e ∈ idx c ↔ classOf e.size = .ok c ∧ ∃ t ∈ ts, t.tag.alloc = false ∧ t.entry = e
  ascending : ∀ c, isExact c = false → (idx c).Pairwise fun e f => e.size ≤ f.size

theorem Spans.isChain {a b : Nat} {p q : Bool} {ts : List Tile} (h : Spans a p ts b q)
    (hs : Spaced ts) :
    ts.IsChain fun t u => t.tag.alloc = true ∨ u.tag.alloc = true := by
  induction ts generalizing a p with
  | nil => exact .nil
  | cons t ts ih =>
    obtain ⟨-, -, -, -, hspan⟩ := h
    have hchain := ih hspan fun u hu => hs u (List.mem_cons_of_mem _ hu)
    cases ts with
    | nil => exact .singleton t
    | cons u us =>
      refine .cons_cons ?_ hchain
      cases hu : u.tag.alloc with
      | true => exact .inr rfl
      | false =>
        have := hs u (by simp) hu
        exact .inl (hspan.2.1 ▸ this)

variable [LawfulArena A]

theorem Heap.Laid.readOff {h : Heap A} {row : List Tile} {idx : Index} (hl : h.Laid row idx) :
    ∃ ts q, row = ts ++ [⟨h.bounds.high, ⟨0, q, true⟩⟩] ∧ h.WellFormed ts q idx := by
  obtain ⟨ts, q, rfl, hspan⟩ := hl.tiled.row.snoc
  have hfiles := hl.sound.filed.files
  have hmem : ∀ t ∈ ts, t ∈ ts ++ [⟨h.bounds.high, ⟨0, q, true⟩⟩] :=
    fun t ht => List.mem_append_left _ ht
  refine ⟨ts, q, rfl, hspan, fun t ht => (hl.tiled.written t (hmem t ht)).header, ?_,
    ⟨hl.header, hl.footer⟩, ?_,
    hspan.isChain fun t ht => hl.sound.spaced t (hmem t ht), hfiles.members, fun c =>
      hfiles.nodup_bp c,
    fun c pre e post hsplit => hfiles.links hsplit, ?_, hfiles.ascending⟩
  · exact (hl.tiled.written _ (List.mem_append_right ts List.mem_cons_self)).header
  · intro t ht hfree
    have hw := hl.tiled.written t (hmem t ht)
    rw [hw.header, hw.footer hfree]
  · intro c e
    have hvacant : vacant (ts ++ [⟨h.bounds.high, ⟨0, q, true⟩⟩]) = vacant ts := by
      rw [vacant_append, vacant_cons_alloc rfl, vacant_nil, List.append_nil]
    rw [hl.sound.filed.covers, hvacant, mem_vacant]
    refine ⟨fun ⟨hc, t, ht, hfree, he⟩ => ⟨?_, t, ht, hfree, he⟩,
      fun ⟨hc, t, ht, hfree, he⟩ => ⟨?_, t, ht, hfree, he⟩⟩
    all_goals
      have h32 : 32 ≤ e.size := he ▸ hl.tiled.row.size_of_free (hmem t ht) hfree
      have hclass : classOf e.size = .ok (sizeClass e.size) := if_pos h32
    · rw [hclass, hc]
    · rw [hclass] at hc
      exact Except.ok.inj hc

/-- The live blocks are the allocated ones. -/
theorem Spans.live_iff {a high p : Nat} {q₀ q : Bool} {ts : List Tile} (h : Spans a q₀ ts high q) :
    (∃ e ∈ live (ts ++ [⟨high, ⟨0, q, true⟩⟩]), e.bp = p) ↔ ∃ t ∈ ts, t.tag.alloc = true ∧
    t.bp = p := by
  rw [live_epilogue]
  constructor
  · rintro ⟨e, he, rfl⟩
    obtain ⟨t, ht, ha, rfl⟩ := mem_held.mp (mem_live.mp he).1
    exact ⟨t, ht, ha, rfl⟩
  · rintro ⟨t, ht, ha, rfl⟩
    have h32 := (h.bounds ht).2.2.2
    refine ⟨t.entry, mem_live.mpr ⟨mem_held.mpr ⟨t, ht, ha, rfl⟩, ?_⟩, rfl⟩
    simp only [Tile.entry]
    omega

/-- After any run the heap is well-formed, the program holds its allocated blocks, and whatever
    it may call next has an answer or, if calls are checked, overruns the address space. -/
theorem Run.wellFormed {arena : A} {memory : Memory} {config : Config} {past : List (Call × Answer)}
    {w : World A} (hs : LawfulArena.Sane arena) (hr : Run arena memory config past w) :
    ∃ ts q idx, w.heap.WellFormed ts q idx ∧
      (∀ p, p ∈ w.holds ↔ ∃ t ∈ ts, t.tag.alloc = true ∧ t.bp = p) ∧
      ∀ call, w.Permits call → (∃ answer w', w.Step call answer w') ∨ w.Overruns call := by
  obtain ⟨row, idx, hw⟩ := hr.sound hs
  obtain ⟨ts, q, rfl, hwell⟩ := hw.laid.readOff
  refine ⟨ts, q, idx, hwell, ?_, ?_⟩
  · intro p
    exact (hw.holds p).trans hwell.tiles.live_iff
  · intro call hp
    exact hw.answers hp

theorem Run.wellFormed_page : ∃ w ts q idx,
    Run page .blank {} [(.allocate 24, .ok (some 4128)), (.allocate 100, .ok (some 4160)),
      (.release 4128, .ok none)] w ∧
      w.heap.WellFormed ts q idx ∧ (∀ p, p ∈ w.holds ↔ ∃ t ∈ ts, t.tag.alloc = true ∧ t.bp = p) ∧
      ∃ answer w', w.Step (.allocate 8) answer w' := by
  obtain ⟨w, hr, -, hlook⟩ :=
    Run.of_trial page .blank {} [.allocate 24, .allocate 100, .release 4128]
    [.ok (some 4128), .ok (some 4160),
      .ok none] (fun h => h.config.checkEachOp) false (by decide +kernel) (by decide +kernel)
  obtain ⟨ts, q, idx, hwell, hholds, hanswers⟩ := Run.wellFormed (A := FixedArena) trivial hr
  refine ⟨w, ts, q, idx, hr, hwell, hholds, (hanswers (.allocate 8) trivial).resolve_right ?_⟩
  intro hover
  rw [hover.checks] at hlook
  cases hlook

end BoundaryTag
