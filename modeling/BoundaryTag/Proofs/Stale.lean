/-
  BoundaryTag.Proofs.Stale — addresses that a program was given and that it holds no longer.

  Such an address is judged by the word below it, as any other is. By now that word may lie
  anywhere in a free block: where a header, a link or a footer is, or where the heap keeps
  nothing. There the program may have written while another block was live around it.

  Proved: an address whose old header lies in a free block is refused, and nothing changes,
  unless that word reads as the header of an allocated block; and then it is a word that the
  free block has no use for. With bit 0 clear in fresh memory and in what the program writes to
  aligned words, it is always refused (`Run.stale_release`). Both conditions count: a program
  that wrote such a word can release the same block twice (`Run.stale_accepted`).
-/

import BoundaryTag.Proofs.Unmistakable
import BoundaryTag.Proofs.WellFormed

namespace BoundaryTag

/-! ## The words of a free block -/

section Words

variable {r : Region} {first : Nat} {s : Store} {row : List Tile} {idx : Index} {t : Tile}
  {e : Entry} {c : Nat}

theorem even_link {low : Nat} {o : Option Nat} (hlow : low % 8 = 0)
    (ho : ∀ n, o = some n → low ≤ n ∧ n % 8 = 0) : link low o % 2 = 0 := by
  cases o with
  | none => rfl
  | some n =>
    obtain ⟨hle, h8⟩ := ho n rfl
    show (n - low) % 2 = 0
    omega

theorem Files.even_links (h : Files r s idx) (hlow : r.low % 8 = 0)
    (hidx : ∀ c, ∀ e ∈ idx c, e.bp % 8 = 0) (he : e ∈ idx c) :
    s.memory.word e.bp % 2 = 0 ∧ s.memory.word (e.bp + 8) % 2 = 0 := by
  obtain ⟨pre, post, hsplit⟩ := List.append_of_mem he
  have hmember : ∀ f ∈ idx c, r.low ≤ f.bp ∧ f.bp % 8 = 0 :=
    fun f hf => ⟨Nat.le_of_add_right_le (h.stands c f hf).low_le, hidx c f hf⟩
  have hthreaded := h.threaded c
  rw [hsplit, threaded_append] at hthreaded
  obtain ⟨-, hnext, hprev, -⟩ := hthreaded
  rw [hnext, hprev]
  constructor
  · refine even_link hlow fun n hn => ?_
    obtain ⟨f, hf, rfl⟩ := mem_of_firstOr hn
    exact hmember f (by simp [hsplit, hf])
  · refine even_link hlow fun n hn => ?_
    rcases mem_of_lastOr hn with ⟨f, hf, rfl⟩ | hnone
    · exact hmember f (by simp [hsplit, hf])
    · cases hnone

/-- Bit 0 is clear in header, links and footer. -/
theorem Sound.even_words (h : Sound r first s row idx) (hlow : r.low % 8 = 0) (ht : t ∈ row)
    (hfree : t.tag.alloc = false) :
    s.memory.word (t.bp - 8) % 2 = 0 ∧ s.memory.word t.bp % 2 = 0 ∧
    s.memory.word (t.bp + 8) % 2 = 0 ∧
      s.memory.word (t.stop - 16) % 2 = 0 := by
  have hwritten := h.tiled.written t ht
  have htag : t.tag.encode % 2 = 0 := by rw [Tag.encode_mod_two (h.tiled.fits ht).whole, hfree]; rfl
  have hmem : t.entry ∈ idx (sizeClass t.entry.size) :=
    h.filed.mem (mem_vacant.mpr ⟨t, ht, hfree, rfl⟩)
  obtain ⟨hnext, hprev⟩ := h.filed.files.even_links hlow h.filed.aligned hmem
  exact ⟨hwritten.header ▸ htag, hnext, hprev, hwritten.footer hfree ▸ htag⟩

end Words

/-! ## What a heap is read off from -/

/-- Blocks that lie back to back between the same bounds are told by their headers. -/
theorem Spans.tiles_unique {a b : Nat} {p q q' : Bool} {m : Memory} {ts ts' : List Tile}
    (h : Spans a p ts b q) (h' : Spans a p ts' b q')
    (hm : ∀ t ∈ ts, m.word (t.bp - 8) = t.tag.encode)
    (hm' : ∀ t ∈ ts', m.word (t.bp - 8) = t.tag.encode) : ts = ts' := by
  induction ts generalizing a p ts' with
  | nil =>
    cases ts' with
    | nil => rfl
    | cons t' ts' =>
      have hroom := h'.bounds List.mem_cons_self
      have hab := h.1
      obtain ⟨hbp, -⟩ := h'
      simp only [Tile.stop] at hroom
      omega
  | cons t ts ih =>
    cases ts' with
    | nil =>
      have hroom := h.bounds List.mem_cons_self
      have hab := h'.1
      obtain ⟨hbp, -⟩ := h
      simp only [Tile.stop] at hroom
      omega
    | cons t' ts' =>
      obtain ⟨hbp, -, h8, -, hspan⟩ := h
      obtain ⟨hbp', -, h8', -, hspan'⟩ := h'
      have hbps : t.bp = t'.bp := hbp.trans hbp'.symm
      have hwords : t.tag.encode = t'.tag.encode := by
        rw [← hm t List.mem_cons_self, ← hm' t' List.mem_cons_self, hbps]
      have htags : t.tag = t'.tag := by rw [← Tag.decode_encode h8, hwords, Tag.decode_encode h8']
      obtain rfl : t = t' := by
        cases t
        cases t'
        exact congr (congrArg Tile.mk hbps) htags
      rw [ih hspan hspan' (fun u hu => hm u (List.mem_cons_of_mem _ hu)) fun u hu =>
        hm' u (List.mem_cons_of_mem _ hu)]

namespace Heap

variable {A : Type} [Arena A] {h h' : Heap A} {row : List Tile} {idx : Index} {t : Tile} {p : Nat}

/-- The heap has this block, and it is free. -/
def HasFree (h : Heap A) (t : Tile) : Prop :=
  ∃ ts q idx, h.WellFormed ts q idx ∧ t ∈ ts ∧ t.tag.alloc = false

/-- The word below the address reads as the header of an allocated block that ends in the heap. -/
def ReadsAllocated (h : Heap A) (p : Nat) : Prop :=
  (h.tagAt p).alloc = true ∧ 32 ≤ (h.tagAt p).size ∧ p + ((h.tagAt p).size - 8) ≤ h.bounds.high

/-- A block may begin at the address. -/
structure Places (h : Heap A) (p : Nat) : Prop where
  first_le : h.firstBlock ≤ p
  lt_high : p < h.bounds.high
  aligned : p % 8 = 0

variable [LawfulArena A]

theorem Laid.free_mem (hl : Laid h row idx) (ht : h.HasFree t) : t ∈ row ∧ t.tag.alloc = false := by
  obtain ⟨ts, q, idx', hwell, ht, hfree⟩ := ht
  obtain ⟨ts', q', rfl, hwell'⟩ := hl.readOff
  obtain rfl := hwell.tiles.tiles_unique hwell'.tiles hwell.headers hwell'.headers
  exact ⟨List.mem_append_left _ ht, hfree⟩

theorem Laid.places (hl : Laid h row idx) {e : Entry} (he : e ∈ live row) : h.Places e.bp := by
  obtain ⟨hfirst, h32, hhigh⟩ := hl.live_bounds he
  exact ⟨hfirst, by omega, live_aligned hl he⟩

omit [LawfulArena A] in
theorem Places.later (hp : h.Places p) (hlater : Later h h') : h'.Places p :=
  ⟨hlater.firstBlock ▸ hp.first_le, Nat.lt_of_lt_of_le hp.lt_high hlater.high_le, hp.aligned⟩

/-- An address at which a block may begin is judged by what it reads as. -/
theorem Laid.judge (hl : Laid h row idx) (hp : h.Places p) :
    (h.ReadsAllocated p → checkAddress p h = .ok () h) ∧
    (¬ h.ReadsAllocated p →
      checkAddress p h = .error (.refused (.invalidAddress p .notAllocated)) h) := by
  obtain ⟨hfirst, hhigh, h8⟩ := hp
  have hreads : h.ReadsAllocated p ↔ ¬ ((h.tagAt p).alloc = false ∨ (h.tagAt p).size < 32 ∨
      h.bounds.high < p + ((h.tagAt p).size - 8)) := by
    unfold ReadsAllocated
    rw [not_or, not_or, Bool.not_eq_false, Nat.not_lt, Nat.not_lt]
  rw [checkAddress_eq hl, if_neg (by omega), if_neg (by omega), hreads]
  constructor
  · intro hr
    exact if_neg hr
  · intro hr
    exact if_pos (not_not.mp hr)

/-- What reads as allocated is none of the words that a free block keeps. -/
theorem Laid.unused (hl : Laid h row idx) (ht : h.HasFree t) (h₁ : t.bp ≤ p) (h₂ : p + 8 ≤ t.stop)
    (h8 : p % 8 = 0) (hr : h.ReadsAllocated p) :
    t.bp + 24 ≤ p ∧ p + 16 ≤ t.stop := by
  obtain ⟨ht, hfree⟩ := hl.free_mem ht
  obtain ⟨hheader, hnext, hprev, hfooter⟩ := hl.sound.even_words hl.low_aligned ht hfree
  have htbp := hl.tiled.row.aligned hl.tiled.aligned ht
  have hsize := (hl.tiled.row.bounds ht).2.2.1
  have hodd : h.store.memory.word (p - 8) % 2 = 1 := beq_iff_eq.mp hr.1
  have hne : ∀ x, h.store.memory.word x % 2 = 0 → p - 8 ≠ x := by
    intro x heven hx
    rw [← hx, hodd] at heven
    cases heven
  have h₃ := hne _ hheader
  have h₄ := hne _ hnext
  have h₅ := hne _ hprev
  have h₆ := hne _ hfooter
  have hlow := hl.tiled.low_le
  have hfirst := (hl.tiled.row.bounds ht).1
  simp only [Tile.stop] at h₂ h₆ ⊢
  omega

omit [LawfulArena A] in
theorem tryRelease_accepted {e : HeapError} (hc : checkAddress p h = .ok () h) :
    tryRelease p h ≠ .error (.refused e) h' := by
  intro hrun
  unfold tryRelease at hrun
  by_cases h0 : p = 0
  · rw [if_pos h0] at hrun
    cases hrun
  · rw [if_neg h0, HeapM.bind_apply, hc] at hrun
    exact unrefusing_takeBack p _ _ _ hrun

omit [LawfulArena A] in
/-- A heap that begins with a free block. -/
theorem free_first {ts : List Tile} {q : Bool} (hw : h.WellFormed ts q idx)
    (hlt : h.firstBlock < h.bounds.high) (hfree : (h.tagAt h.firstBlock).alloc = false) :
    h.HasFree ⟨h.firstBlock, h.tagAt h.firstBlock⟩ := by
  refine ⟨ts, q, idx, hw, ?_, hfree⟩
  cases ts with
  | nil => exact absurd hw.tiles.1 (Nat.ne_of_lt hlt)
  | cons t ts =>
    obtain ⟨hbp, -, h8, -⟩ := hw.tiles
    have htag : h.tagAt h.firstBlock = t.tag := by
      rw [tagAt, ← hbp, hw.headers t List.mem_cons_self, Tag.decode_encode h8]
    rw [htag, ← hbp]
    exact List.mem_cons_self

end Heap

/-! ## Addresses that were given -/

section Runs

variable {A : Type} [Arena A] [LawfulArena A] {w : World A} {h h' : Heap A} {row row' : List Tile}
  {d : Demand} {call : Call} {p : Nat} {t : Tile}

/-- An address that a demand is answered with is that of a live block. -/
theorem Turn.given (ht : Turn h h' row row' d (.ok (some p))) : ∃ e ∈ live row', e.bp = p := by
  generalize ha : (Except.ok (some p) : Answer) = answer at ht
  cases ht with
  | still _ hblank =>
    rcases hblank with hnone | ⟨e, herror⟩
    · cases ha.trans hnone
    · cases ha.trans herror
  | added hadd =>
    cases ha
    exact ⟨_, (hadd.gained.mem _).mpr (.inl rfl), rfl⟩
  | resized _ hr =>
    cases ha
    exact ⟨_, (hr.swapped.mem _).mpr (.inl rfl), rfl⟩
  | dropped | written => cases ha

/-- Nothing that was given out ceases to be an address in the heap. -/
theorem Run.given {arena : A} {memory : Memory} {config : Config} {past : List (Call × Answer)}
    (hs : LawfulArena.Sane arena) (hr : Run arena memory config past w)
    (hp : (call, .ok (some p)) ∈ past) : w.heap.Places p := by
  induction hr with
  | start => cases hp
  | @step past w w' call' answer hr hstep ih =>
    obtain ⟨row, idx, hw⟩ := hr.sound hs
    obtain ⟨row', idx', hw', ht⟩ := hw.step hstep
    rcases List.mem_append.mp hp with hp | hp
    · exact (ih hp).later ht.later
    · cases List.mem_singleton.mp hp
      obtain ⟨e, he, rfl⟩ := ht.given
      exact hw'.laid.places he

/-- An address that was given and is no longer held, with the word below it in a free block, is
    refused and nothing changes, unless that word reads as the header of an allocated block. The
    free block keeps nothing there then. It never reads so if bit 0 of the aligned words was
    clear in fresh memory and is clear in what the program writes. -/
theorem Run.stale_release {arena : A} {memory : Memory} {config : Config}
    {past : List (Call × Answer)} (hs : LawfulArena.Sane arena)
    (hr : Run arena memory config past w) (hgiven : (call, .ok (some p)) ∈ past)
    (hstale : p ∉ w.holds) (hfree : w.heap.HasFree t) (h₁ : t.bp ≤ p) (h₂ : p + 8 ≤ t.stop) :
    (¬ w.heap.ReadsAllocated p →
      Heap.tryRelease p w.heap = .error (.refused (.invalidAddress p .notAllocated)) w.heap ∧
      ∃ h', Heap.release p w.heap = .ok () h' ∧ w.heap.Same h') ∧
    (w.heap.ReadsAllocated p → t.bp + 24 ≤ p ∧ p + 16 ≤ t.stop ∧ ∀ e h', Heap.tryRelease p w.heap ≠
      .error (.refused e) h') ∧
    ((∀ a, Arena.high arena ≤ a → a % 8 = 0 → memory.word a % 2 = 0) → (∀ c ∈ past, c.1.Even) →
      ¬ w.heap.ReadsAllocated p) := by
  obtain ⟨row, idx, hw⟩ := hr.sound hs
  have hplaces := hr.given hs hgiven
  obtain ⟨haccepted, hrefused⟩ := hw.laid.judge hplaces
  have hfirst := hplaces.first_le
  have hlow := hw.laid.tiled.low_le
  refine ⟨fun hreads => ?_, fun hreads => ?_, fun hfresh heven hreads => ?_⟩
  · have hrun := Heap.tryRelease_rejected (hrefused hreads) (show p ≠ 0 by omega)
    exact ⟨hrun, Heap.release_refused hrun (Heap.Same.refl _)⟩
  · obtain ⟨h₃, h₄⟩ := hw.laid.unused hfree h₁ h₂ hplaces.aligned hreads
    exact ⟨h₃, h₄, fun e h' => Heap.tryRelease_accepted (haccepted hreads)⟩
  · have h8 := hplaces.aligned
    have hodd : w.heap.store.memory.word (p - 8) % 2 = 1 := beq_iff_eq.mp hreads.1
    rcases headed_heap.mp (hr.unmistakable hs hfresh heven) (p - 8) (by omega) hodd with
      htop | hbelow | hheld
    · have := hplaces.lt_high
      omega
    · omega
    · rw [Nat.sub_add_cancel (by omega)] at hheld
      exact hstale hheld

end Runs

/-- Two blocks that were merged into the rest of the page. -/
theorem Run.stale_release_page : ∃ w, Run page .blank {}
      [(.allocate 24, .ok (some 4128)), (.allocate 24, .ok (some 4160)), (.release 4128, .ok none),
        (.release 4160, .ok none)] w ∧
    4160 ∉ w.holds ∧ w.heap.HasFree ⟨4128, ⟨256, true, false⟩⟩ ∧
    Heap.tryRelease 4160 w.heap = .error (.refused (.invalidAddress 4160 .notAllocated)) w.heap ∧
    ∃ h', Heap.release 4160 w.heap = .ok () h' ∧ w.heap.Same h' := by
  obtain ⟨w, hr, hholds, hlook⟩ :=
    Run.of_trial page .blank {} [.allocate 24, .allocate 24, .release 4128, .release 4160]
    [.ok (some 4128), .ok (some 4160), .ok none,
      .ok none] (fun h => (h.firstBlock, h.bounds.high, h.tagAt 4128))
    (4128, 4384, ⟨256, true, false⟩) (by decide +kernel) (by decide +kernel)
  obtain ⟨hfirst, hlook⟩ := Prod.mk.inj hlook
  obtain ⟨hhigh, htag⟩ := Prod.mk.inj hlook
  have hstale : 4160 ∉ w.holds := by
    rw [hholds]
    decide +kernel
  obtain ⟨ts, q, idx, hwell, -⟩ := hr.wellFormed trivial
  have hfree := Heap.free_first hwell (by omega) (by rw [hfirst, htag])
  rw [hfirst, htag] at hfree
  obtain ⟨hrefused, -, hnever⟩ := Run.stale_release trivial hr
      (List.mem_of_getElem? (i := 1) rfl) hstale hfree (by decide) (by decide)
  refine ⟨w, hr, hstale, hfree, hrefused (hnever (fun a _ _ => ?_) ?_)⟩
  · rw [Memory.word_blank]
  · simp [Call.Even]

/-- Two words that read as the headers of allocated blocks, 32 bytes apart. -/
def lookalikes : List UInt8 :=
  [35, 0, 0, 0, 0, 0, 0, 0] ++ List.replicate 24 0 ++ [35, 0, 0, 0, 0, 0, 0, 0]

/-- Releases the block at 4128, and the one at 4160 once more. Answers whether that files a
    block inside of the free one. -/
def releasedTwice : HeapM FixedArena Bool := do
  let answers ← Call.run [.release 4128]
  let h ← get
  Heap.tryRelease 4160
  let h' ← get
  return decide (answers = [.ok none] ∧ h.firstBlock = 4128 ∧ h.bounds.high = 4384 ∧
    h.tagAt 4128 = ⟨256, true, false⟩ ∧
    h.store.buckets.head 0 = none ∧ h'.store.buckets.head 0 = some 4160)

/-- What a program writes counts. The block at 4160 was given and released, and merged into a
    free block, as was the block that lay over it when the program wrote to 4152. It is
    accepted, and filed as a block of its own inside of the free block. -/
theorem Run.stale_accepted : ∃ w h', Run page .blank {}
      [(.allocate 24, .ok (some 4128)), (.allocate 24, .ok (some 4160)), (.release 4128, .ok none),
        (.release 4160, .ok none),
        (.allocate 100, .ok (some 4128)), (.store 4152 lookalikes, .ok none),
        (.release 4128, .ok none)] w ∧
    4160 ∉ w.holds ∧ w.heap.HasFree ⟨4128, ⟨256, true, false⟩⟩ ∧
    Heap.tryRelease 4160 w.heap = .ok () h' ∧
    w.heap.store.buckets.head 0 = none ∧ h'.store.buckets.head 0 = some 4160 := by
  obtain ⟨w, hr, hholds, hlook⟩ := Run.of_trial page .blank {}
      [.allocate 24, .allocate 24, .release 4128, .release 4160, .allocate 100]
    [.ok (some 4128), .ok (some 4160), .ok none, .ok none, .ok (some 4128)]
    (fun h => (Heap.answer? (Heap.usableSize 4128) h,
      Heap.answer? releasedTwice (h.withMemory (h.store.memory.store 4152 lookalikes))))
    (some (some 104), some true) (by decide +kernel) (by decide +kernel)
  obtain ⟨husable, hlook⟩ := Prod.mk.inj hlook
  obtain ⟨h₁, husable⟩ := Heap.answer_some husable
  obtain rfl := (Heap.looks_usableSize 4128).ok husable
  have hheld : 4128 ∈ w.holds := by
    rw [hholds]
    decide +kernel
  -- 4152 lies in the payload of the block at 4128, which is live
  have hpermits : w.Permits (.store 4152 lookalikes) :=
    ⟨4128, hheld, 104, husable, by decide, by decide⟩
  have hstored := hr.step (.mk hpermits rfl)
  obtain ⟨h₂, htwice⟩ := Heap.answer_some hlook
  obtain ⟨answers, h₃, hrelease, htwice⟩ := HeapM.bind_ok.mp htwice
  obtain ⟨_, _, ⟨⟩, hrest⟩ := HeapM.bind_ok.mp htwice
  obtain ⟨_, h₄, hagain, hfiled⟩ := HeapM.bind_ok.mp hrest
  obtain ⟨_, _, ⟨⟩, hfiled⟩ := HeapM.bind_ok.mp hfiled
  obtain ⟨rfl, hfirst, hhigh, htag, hbefore, hafter⟩ :=
    of_decide_eq_true (EStateM.Result.ok.inj hfiled).1
  have hlast := hstored.replay hrelease
      (by simp [owned, Call.owned, Call.demand, Demand.account, hheld])
  have hstale : 4160 ∉ accounts w.holds [(.release 4128, .ok none)] := by
    rw [hholds]
    decide +kernel
  obtain ⟨ts, q, idx, hwell, -⟩ := hlast.wellFormed trivial
  have hfree := Heap.free_first hwell (show h₃.firstBlock < h₃.bounds.high by omega)
      (by rw [hfirst, htag])
  rw [hfirst, htag] at hfree
  exact ⟨_, h₄, hlast, hstale, hfree, hagain, hbefore, hafter⟩

end BoundaryTag
