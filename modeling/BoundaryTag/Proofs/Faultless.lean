/-
  BoundaryTag.Proofs.Faultless — nothing that a program may ask of a heap goes wrong.

  A step goes wrong when it meets a fault: a sum, product or difference that is no word, a word
  outside the arena, or an assertion about blocks, lists or classes that does not hold. In a
  laid heap there are none of these, with one exception: an audit rounds the heap's high end up
  to a word, and that sum overflows if the arena has taken all but the last word of the address
  space. What is added or subtracted without a check stays within a word (`Heap.InWords`).

  Proved: making a heap, every permitted call after any run, and every question to the
  heap ends with an answer or a refusal, but for that one sum, and keeps to the bytes of
  the heap (`Run.faultless`).
-/

import BoundaryTag.Proofs.Verdicts
import BoundaryTag.Proofs.Windows

namespace BoundaryTag

open Audit

/-! ## What an audit looks at -/

section Looking

variable {α β : Type} {lo hi first bp : Nat} {r : Region} {m m' : Memory}

namespace Sees

theorem check {x : Checking α} {f : α → Checking β} (hx : Sees lo hi x.run m)
    (hf : ∀ a, Checking.Passes x m a → Sees lo hi (f a).run m) :
    Sees lo hi (x >>= f).run m := by
  intro m' hm
  have hrun : ∀ m, (x >>= f).run m = (x.run m).bind fun a => ExceptT.bindCont f a m := fun _ => rfl
  rw [hrun, hrun, hx m' hm]
  rcases hres : x.run m with fault | c | a
  · rfl
  · rfl
  · exact hf a hres m' hm

theorem ite {c : Prop} [Decidable c] {x y : Checking α} (hx : Sees lo hi x.run m)
    (hy : ¬ c → Sees lo hi y.run m) :
    Sees lo hi (if c then x else y).run m := by
  by_cases hc : c
  · rw [if_pos hc]
    exact hx
  · rw [if_neg hc]
    exact hy hc

/-- What is found here ends the check. -/
theorem past {c : Prop} [Decidable c] {corruption : Corruption} {f : α → Checking β}
    {y : Checking β} (hy : ¬ c → Sees lo hi y.run m) :
    Sees lo hi (if c then (throw corruption >>= f) else y).run m := .ite (fun _ _ => rfl) hy

theorem reading {x : Reading α} (hx : Sees lo hi x m) :
    Sees lo hi (liftM x : Checking α).run m := by
  intro m' hm
  have hrun : ∀ m, (liftM x : Checking α).run m = (x m).map Except.ok := fun _ => rfl
  rw [hrun, hrun, hx m' hm]

end Sees

variable (hhi : r.high ≤ hi)

include hhi

theorem sees_block (h : lo + 16 ≤ bp) : Sees lo hi (r.block bp) m := by
  refine .bind (sees_tag hhi (by omega)) fun tag _ => ?_
  split
  · exact .pure _ _
  · refine .bind (.bind (sees_footer hhi (by omega)) fun addr haddr =>
      .bind (sees_read hhi ?_) fun _ _ => .pure _ _) fun _ _ => ?_
    · obtain ⟨-, rfl⟩ := Region.footer_ok haddr
      omega
    · exact .bind (sees_links hhi (by omega)) fun _ _ => .pure _ _

theorem sees_inspect {w : Walk} (h : lo + 16 ≤ bp) : Sees lo hi (inspect r w bp).run m := by
  unfold inspect
  refine .check (fun _ _ => rfl) fun aligned _ => .past fun _ => ?_
  refine .check (.reading (sees_tag hhi (by omega))) fun tag _ => .ite (fun _ _ => rfl) fun _ => ?_
  by_cases hsmall : tag.size < minBlock
  · rw [dif_pos hsmall]
    exact fun _ _ => rfl
  by_cases hlong : r.high < bp + tag.size
  · rw [dif_neg hsmall, dif_pos hlong]
    exact fun _ _ => rfl
  rw [dif_neg hsmall, dif_neg hlong]
  -- once the block is read, nothing else is looked at
  refine .past fun _ => .check (.reading (sees_block hhi h)) fun block _ => ?_
  cases block with
  | allocated => exact fun _ _ => rfl
  | free =>
    refine .past fun _ => ?_
    cases w.prevFree <;> exact fun _ _ => rfl

/-- The walk meets the same blocks, and ends the same way. -/
theorem walkFrom_agree {w : Walk} (h : lo + 16 ≤ bp) (hm : m.Agree lo hi m') :
    walkFrom r m' w bp = walkFrom r m w bp := by
  induction hn : r.high - bp using Nat.strongRecOn generalizing w bp with
  | ind n ih =>
    subst hn
    have hinspect := sees_inspect (w := w) hhi h m' hm
    have hclose : (close r w bp).run m' = (close r w bp).run m := by
      refine Sees.check (fun _ _ => rfl) (fun addr haddr => ?_) m' hm
      obtain ⟨-, -, -, rfl⟩ := Region.header_ok.mp (Checking.passes_except.mp haddr)
      exact .check (.reading (sees_read hhi (by omega))) fun _ _ => .past fun _ _ _ => rfl
    unfold walkFrom
    rw [hinspect, hclose]
    rcases (inspect r w bp).run m with fault | c | _ | passed
    · rfl
    · rfl
    · rfl
    · have hlt := passed.lt_next
      have hle := passed.next_le
      simp only [ih _ (show r.high - passed.next < r.high - bp by omega) (by omega) rfl]

theorem walk_agree {prologue : Nat} (h : lo + 8 ≤ prologue) (hm : m.Agree lo hi m') :
    walk r m' prologue = walk r m prologue := by
  have hprologue : (checkPrologue r prologue).run m' = (checkPrologue r prologue).run m := by
    refine Sees.check (fun _ _ => rfl) (fun addr haddr => ?_) m' hm
    obtain ⟨-, -, -, rfl⟩ := Region.header_ok.mp (Checking.passes_except.mp haddr)
    refine .check (.reading (sees_read hhi (by omega))) fun _ _ =>
      .check (.reading (sees_read hhi (by omega))) fun _ _ => ?_
    exact .ite (fun _ _ => rfl) fun _ _ _ => rfl
  unfold walk
  rw [hprologue]
  rcases (checkPrologue r prologue).run m with fault | c | _
  · rfl
  · rfl
  · exact walkFrom_agree hhi (by simp only [doubleWord]; omega) hm

end Looking

/-! ## Counting -/

section Counting

variable {r : Region} {m : Memory} {first : Nat} {row : List Tile}

theorem tallied_cons {t : Tile} (h32 : 32 ≤ t.tag.size) (s : Stats) (ts : List Tile) :
    tallied s (t :: ts) = tallied (s.count t.tag) ts := by
  rw [tallied, List.foldl_cons, if_neg (by omega), tallied]

/-- The tally of a row is that of its blocks, up to the epilogue. -/
theorem Tiled.tallyFrom (h : Tiled r m first row) (s : Stats) :
    Stats.tallyFrom r first s m = .ok (tallied s row) := by
  suffices ∀ {a p ts}, Row r.high a p ts → (∀ t ∈ ts, t ∈ row) →
      ∀ s, Stats.tallyFrom r a s m = .ok (tallied s ts) from
    this h.row (fun _ ht => ht) s
  intro a p ts hrow
  induction hrow with
  | epilogue p =>
    intro _ s
    rw [Stats.tallyFrom, if_neg (Nat.lt_irrefl _)]
    rfl
  | @block a p tag ts _ _ h32 hrest ih =>
    intro hsub s
    have ht := hsub ⟨a, tag⟩ List.mem_cons_self
    have hle := hrest.le
    have hlt := h.high_lt
    rw [Stats.tallyFrom, if_pos (by omega), tallied_cons h32,
      ← ih (fun u hu => hsub u (List.mem_cons_of_mem _ hu))]
    simp only [Reading.bind_apply, h.tag ht, Except.bind]
    rw [if_neg (by omega), if_pos (by omega)]

theorem Stats.count_bytes (s : Stats) (tag : Tag) : (s.count tag).arenaBytes = s.arenaBytes ∧
    (s.count tag).allocatedBytes + (s.count tag).freeBytes = s.allocatedBytes + s.freeBytes +
      tag.size := by
  unfold Stats.count
  split <;> exact ⟨rfl, by simp only; omega⟩

/-- The blocks of a row are as long as the row. -/
theorem Row.tallied_bytes {high a : Nat} {p : Bool} {ts : List Tile} (h : Row high a p ts)
    (s : Stats) :
    (tallied s ts).arenaBytes = s.arenaBytes ∧
      (tallied s ts).allocatedBytes + (tallied s ts).freeBytes + a = s.allocatedBytes +
        s.freeBytes + high := by
  induction h generalizing s with
  | epilogue p => exact ⟨rfl, rfl⟩
  | @block a p tag ts _ _ h32 _ ih =>
    rw [tallied_cons h32]
    obtain ⟨harena, hbytes⟩ := ih (s.count tag)
    obtain ⟨hsame, hcount⟩ := Stats.count_bytes s tag
    exact ⟨harena.trans hsame, by simp only at hbytes ⊢; omega⟩

end Counting

namespace Heap

variable {A α : Type} [Arena A] [LawfulArena A] {lo hi : Nat} {h h' : Heap A} {row : List Tile}
  {idx : Index} {x : HeapM A α}

/-! ## Ending well -/

/-- The step has an answer or is refused. The only other end is that it audits a heap whose high
    end cannot be rounded up, which overflows. In any case it keeps to the bytes from `lo` up to
    where the heap then ends. -/
structure Faultless (x : HeapM A α) (h : Heap A) (lo : Nat) (audits : Prop) : Prop where
  ends : (∃ answer h', attempt x h = .ok answer h') ∨
    audits ∧ ∃ h', attempt x h = .error (.fault .overflow) h' ∧ wordLimit ≤ h'.bounds.high + 8
  within : Within lo (final (x h)).bounds.high x h

namespace Faultless

variable {audits : Prop}

omit [LawfulArena A] in
theorem of_ok {a : α} (hrun : x h = .ok a h') (hx : ∀ hi, Within lo hi x h) :
    Faultless x h lo audits :=
  ⟨.inl ⟨_, _, attempt_ok hrun⟩, hx _⟩

omit [LawfulArena A] in
theorem of_refused {e : HeapError} (hrun : x h = .error (.refused e) h')
    (hx : ∀ hi, Within lo hi x h) : Faultless x h lo audits :=
  ⟨.inl ⟨_, _, attempt_refused hrun⟩, hx _⟩

omit [LawfulArena A] in
theorem of_overflow (ha : audits) (hrun : x h = .error (.fault .overflow) h')
    (hhigh : wordLimit ≤ h'.bounds.high + 8) (hx : ∀ hi, Within lo hi x h) :
    Faultless x h lo audits :=
  ⟨.inr ⟨ha, h', by rw [attempt, hrun], hhigh⟩, hx _⟩

end Faultless

/-! ## Questions -/

section Questions

variable (hl : Laid h row idx) (hlo : lo + 32 ≤ h.firstBlock)

include hl

theorem stats_laid : stats h = .ok (tallied { arenaBytes := h.bounds.span } row) h := by
  simp only [stats, HeapM.bind_apply, hl.region, HeapM.get_apply, HeapM.lift_reading, Stats.tally,
    hl.tiled.tallyFrom]

include hlo

/-- Any address may be asked about. -/
theorem faultless_usableSize (addr : Nat) : Faultless (usableSize addr) h lo False := by
  have hcheck : ∀ hi, Within lo hi (attempt (checkAddress addr)) h :=
    fun hi => .attempt (checkAddress_within hl hlo addr)
  rcases checkAddress_cases hl addr with hrun | ⟨fault, hrun⟩
  · have hin : h.firstBlock ≤ addr ∧ addr < h.bounds.high := by
      rw [checkAddress_eq hl] at hrun
      split at hrun
      · cases hrun
      · omega
    have hlow := hl.tiled.low_le
    have htag : h.bounds.tag addr h.store.memory = .ok (h.tagAt addr) :=
      Region.tag_eq (by omega) (by omega)
    have hsize : h.bounds.size addr h.store.memory = .ok (h.tagAt addr).size := by
      simp only [Region.size, Reading.bind_apply, htag]
      rfl
    have husable : usableSize addr h = .ok (some ((h.tagAt addr).size - wordSize)) h := by
      simp only [usableSize, HeapM.bind_apply, attempt_ok hrun, hl.region,
        HeapM.lift_reading, hsize]
      rfl
    refine .of_ok husable fun hi => .step (attempt_ok hrun) (hcheck hi) (.step hl.region .region ?_)
    exact .heap_look hsize (fun hhi => sees_size hhi (by omega)) (.pure _ _)
  · have husable : usableSize addr h = .ok none h := by
      simp only [usableSize, HeapM.bind_apply, attempt_refused hrun]
      rfl
    exact .of_ok husable fun hi => .step (attempt_refused hrun) (hcheck hi) (.pure _ _)

theorem faultless_stats : Faultless stats h lo False := by
  refine .of_ok (stats_laid hl) fun hi => .known ?_ fun hhi m hm => ?_
  · rw [stats_laid hl]
    rfl
  · rw [stats_laid hl]
    exact stats_laid (hl.agree hlo hhi hm)

theorem validate_within : Within lo hi validate h := by
  by_cases hhigh : h.bounds.high + 8 < wordLimit
  · refine .known ?_ fun hhi m hm => ?_
    · rw [validate_laid hl hhigh]
      rfl
    · rw [validate_laid hl hhigh]
      exact validate_laid (hl.agree hlo hhi hm) hhigh
  · refine .known ?_ fun hhi m hm => ?_
    · rw [validate_overflow hl (Nat.not_lt.mp hhigh)]
      rfl
    · rw [validate_overflow hl (Nat.not_lt.mp hhigh)]
      exact validate_overflow (hl.agree hlo hhi hm) (Nat.not_lt.mp hhigh)

theorem faultless_validate : Faultless validate h lo True := by
  by_cases hhigh : h.bounds.high + 8 < wordLimit
  · exact .of_ok (validate_laid hl hhigh) fun hi => validate_within hl hlo
  · exact .of_overflow trivial (validate_overflow hl (Nat.not_lt.mp hhigh))
      (Nat.not_lt.mp hhigh) fun hi => validate_within hl hlo

omit hl hlo [LawfulArena A] in
theorem saw_within (blocks : List Block) :
    Within lo hi (blocks.forM fun block => emit (saw block) : HeapM A Unit) h := by
  induction blocks generalizing h with
  | nil => exact .pure _ _
  | cons block blocks ih => exact .bind (.emit _) fun _ _ _ => ih

/-- The blocks that are shown are the same, whatever lies around the heap. -/
theorem checkHeap_within (verbose : Bool) : Within lo hi (checkHeap verbose) h := by
  have hrun : ∀ {m}, Laid (h.withMemory m) row idx → checkHeap true (h.withMemory m) = (do
      (walk h.bounds m h.prologue).blocks.forM fun block => emit (saw block)
      return (← validate).map fun _ => () : HeapM A (Except Corruption Unit)) (h.withMemory m) := by
    intro m hl
    have hregion : Heap.region (h.withMemory m) = .ok h.bounds (h.withMemory m) := hl.region
    simp only [checkHeap, Bool.not_true, Bool.false_eq_true, if_false, HeapM.bind_apply,
      HeapM.get_apply, hregion]
    rfl
  cases verbose with
  | false => exact .pure _ _
  | true =>
    have hshow : Within lo hi (do
        (walk h.bounds h.store.memory h.prologue).blocks.forM fun block => emit (saw block)
        return (← validate).map fun _ => () : HeapM A (Except Corruption Unit)) h := by
      obtain ⟨trace, hsaw⟩ := saw_run (walk h.bounds h.store.memory h.prologue).blocks h
      have hsame : Same h { h with trace } := ⟨rfl, rfl, rfl, rfl, id⟩
      exact .step hsaw (saw_within _)
        (.bind (validate_within (hl.same hsame) hlo) fun _ _ _ => .pure _ _)
    refine .congr hshow (hrun (m := h.store.memory) hl) fun hhi m hm => ?_
    have hwalk : walk h.bounds m h.prologue = walk h.bounds h.store.memory h.prologue := 
      walk_agree hhi (by simp only [firstBlock, doubleWord] at hlo; omega) hm
    rw [← hwalk]
    exact hrun (hl.agree hlo hhi hm)

theorem faultless_checkHeap (verbose : Bool) :
    Faultless (checkHeap verbose) h lo (verbose = true) := by
  have hlow := hl.tiled.low_le
  have hle := hl.tiled.row.le
  simp only [bounds] at hlow hle
  cases verbose with
  | false =>
    have hrun : checkHeap false h = .ok (.ok ()) h := rfl
    exact .of_ok hrun fun hi => checkHeap_within hl hlo false
  | true =>
    obtain ⟨h', hu, hok, herror⟩ := checkHeap_run (h := h) (by omega) hl.low_aligned
    by_cases hhigh : h.bounds.high + 8 < wordLimit
    · exact .of_ok (hok _ (validate_laid hl hhigh)) fun hi => checkHeap_within hl hlo true
    · refine .of_overflow rfl (herror _ (validate_overflow hl (Nat.not_lt.mp hhigh))) ?_ fun hi =>
        checkHeap_within hl hlo true
      rw [hu.bounds]
      exact Nat.not_lt.mp hhigh

end Questions

/-! ## A new heap -/

/-- A heap that has claimed nothing yet. Setting it up is what `start` does. -/
def unmade (arena : A) (memory : Memory) (config : Config) : Heap A :=
  { arena, store := { memory, buckets := .empty }, prologue := 0, config, trace := #[] }

/-- The heap with its four words, which are all there is to it before it grows for the first
    time. -/
def foundedAt (h : Heap A) (arena : A) (start : Nat) : Heap A :=
  { h with
    arena
    store := { h.store with memory := founded h.store.memory start }
    prologue := start + 16 }

theorem claim_within (hs : LawfulArena.Sane h.arena) (bytes : Nat) :
    Within lo hi (claim bytes) h := by
  have hrun : ∀ m, claim bytes (h.withMemory m) = replaced m (claim bytes h) := by
    intro m
    unfold claim
    rw [show (h.withMemory m).arena = h.arena from rfl]
    cases Arena.extend bytes h.arena <;> rfl
  have htop : h.bounds.high ≤ Backed.top (final (claim bytes h)) ∧
      Backed.memory (final (claim bytes h)) = h.store.memory := by
    unfold claim
    rcases hx : Arena.extend bytes h.arena with ⟨start, a⟩ | ⟨e, a⟩
    · obtain ⟨-, -, hhigh, -⟩ := LawfulArena.extend_ok hs hx
      exact ⟨show h.bounds.high ≤ Arena.high a by rw [hhigh]; exact Nat.le_add_right _ _, rfl⟩
    · obtain ⟨-, hhigh, -⟩ := LawfulArena.extend_error hs hx
      exact ⟨Nat.le_of_eq hhigh.symm, rfl⟩
  exact .aside htop.1 htop.2 hrun

section Start

variable {a : A} {start : Nat} (hclaim : claim metadataOverhead h = .ok start { h with arena := a })
  (h8 : start % 8 = 0) (hlow : Arena.low a % 8 = 0) (hle : Arena.low a ≤ start)
  (hhigh : Arena.high a = start + 32) (hlt : Arena.high a < wordLimit)

include hle hhigh

omit [LawfulArena A] in
/-- The four words that a heap starts with are words of its arena. -/
theorem founding_write {addr : Nat} (h₁ : start ≤ addr) (h₂ : addr ≤ start + 24) (w : Nat)
    (m : Memory) :
    (⟨Arena.low a, Arena.high a⟩ : Region).write addr w m = .ok () (m.setWord addr w) :=
  Region.write_eq (show Arena.low a ≤ addr by omega) (show addr + 8 ≤ Arena.high a by omega) w

include hclaim h8 hlow hlt

omit [LawfulArena A] in
theorem setUp_founded : setUp h = (do
    discard <| grow h.config.chunkWords
    checkAfter .init : HeapM A Unit) (h.foundedAt a start) := by
  have halign : isAligned start = .ok true := isAligned_true.mpr ⟨h8, by omega⟩
  have hregion : region { h with arena := a, prologue := start + 16 } =
      .ok ⟨Arena.low a, Arena.high a⟩ { h with arena := a, prologue := start + 16 } :=
    region_eq (show Arena.low a ≤ Arena.high a by omega) hlow
  have hwrite : ∀ k, k ≤ 24 → ∀ w m, (⟨Arena.low a, Arena.high a⟩ : Region).write (start + k) w m =
      .ok () (m.setWord (start + k) w) :=
    fun k hk => founding_write hle hhigh (Nat.le_add_right _ _) (by omega)
  have hwrite₀ : ∀ w m, (⟨Arena.low a, Arena.high a⟩ : Region).write start w m =
      .ok () (m.setWord start w) := hwrite 0 (by omega)
  simp only [setUp, HeapM.bind_apply, hclaim, HeapM.lift_except,
    halign, Bool.not_true, Bool.false_eq_true, if_false, HeapM.modify_apply, doubleWord,
    wordSize, hregion, HeapM.lift_writing, hwrite₀, hwrite 8 (by omega), hwrite 16 (by omega),
    hwrite (3 * 8) (by omega), HeapM.get_apply]
  rfl

/-- The founding words are written above the old high end. -/
theorem setUp_within (hs : LawfulArena.Sane h.arena) (hlo : lo ≤ start)
    (hgrow : Within lo hi (grow h.config.chunkWords) (h.foundedAt a start))
    (hcheck : ∀ b h', grow h.config.chunkWords (h.foundedAt a start) = .ok b h' →
      Within lo hi (checkAfter .init) h') : Within lo hi setUp h := by
  have halign : isAligned start = .ok true := isAligned_true.mpr ⟨h8, by omega⟩
  have hregion : region { h with arena := a, prologue := start + 16 } =
      .ok ⟨Arena.low a, Arena.high a⟩ { h with arena := a, prologue := start + 16 } :=
    region_eq (show Arena.low a ≤ Arena.high a by omega) hlow
  unfold setUp
  refine .step hclaim (claim_within hs _) (.step (by rw [HeapM.lift_except, halign])
    (.heap_except _) (.ite (fun hn => absurd hn (by simp)) fun _ => ?_))
  refine .step rfl (.aside (Nat.le_refl _) rfl fun _ => rfl) (.step hregion .region ?_)
  obtain ⟨m₁, hm₁⟩ : ∃ m₁, m₁ = h.store.memory.setWord start 0 := ⟨_, rfl⟩
  obtain ⟨m₂, hm₂⟩ : ∃ m₂, m₂ = m₁.setWord (start + 8) (Tag.encode ⟨16, true, true⟩) := ⟨_, rfl⟩
  obtain ⟨m₃, hm₃⟩ : ∃ m₃, m₃ = m₂.setWord (start + 16) (Tag.encode ⟨16, true, true⟩) := ⟨_, rfl⟩
  obtain ⟨m₄, hm₄⟩ : ∃ m₄, m₄ = m₃.setWord (start + 24) (Tag.encode ⟨0, true, true⟩) := ⟨_, rfl⟩
  have hwrite : ∀ k, k ≤ 24 → ∀ w m, (⟨Arena.low a, Arena.high a⟩ : Region).write (start + k) w m =
      .ok () (m.setWord (start + k) w) :=
    fun k hk => founding_write hle hhigh (Nat.le_add_right _ _) (by omega)
  refine .heap_write (hm₁ ▸ hwrite 0 (by omega) _ _) (fun hhi => within_write hhi hlo _) ?_
  refine .heap_write (hm₂ ▸ hwrite 8 (by omega) _ _) (fun hhi => within_write hhi (by omega) _) ?_
  refine .heap_write (hm₃ ▸ hwrite 16 (by omega) _ _) (fun hhi => within_write hhi (by omega) _) ?_
  refine .heap_write (hm₄ ▸ hwrite 24 (by omega) _ _) (fun hhi => within_write hhi (by omega) _) ?_
  have hfounded : ((((({ h with arena := a, prologue := start + 16 } : Heap A).withMemory
      m₁).withMemory m₂).withMemory m₃).withMemory m₄) =
      h.foundedAt a start := by
    rw [foundedAt, founded, ← hm₁, ← hm₂, ← hm₃, ← hm₄]
    rfl
  refine .bind_get (fun _ => rfl) (.bind (.discard (hfounded ▸ hgrow)) fun _ h' hrun => ?_)
  obtain ⟨b, hrun⟩ := HeapM.discard_ok.mp hrun
  exact hcheck b h' (hfounded ▸ hrun)

end Start

/-- A step that comes down to the first growth of a heap, and its check. -/
theorem faultless_grown {x : HeapM A Unit} {words : Nat} {h₁ : Heap A} {idx : Index}
    (hl : Laid h₁ row idx) (hlo : lo + 32 ≤ h₁.firstBlock) (hw : words + 1 < wordLimit)
    (h4 : 4 ≤ words)
    (hrun : x h = (do discard <| grow words; checkAfter .init : HeapM A Unit) h₁)
    (hwithin : ∀ hi, Within lo hi (grow words) h₁ →
      (∀ b h', grow words h₁ = .ok b h' → Within lo hi (checkAfter .init) h') →
      Within lo hi x h) :
    Faultless x h lo (h₁.config.checkEachOp = true) := by
  have hgrow : ∀ hi, Within lo hi (grow words) h₁ := fun hi => grow_within hl hlo hw h4
  rcases grow_spec hl hw h4 with
    ⟨e, h₂, hrefused, -⟩ | ⟨b, h₂, -, -, row, idx, hgrown, hl₂, hlater, -⟩
  · have hrefused' : x h = .error (.refused e) h₂ := by
      rw [hrun, HeapM.bind_apply, HeapM.discard_error hrefused]
    refine .of_refused hrefused' fun hi => hwithin hi (hgrow hi) fun b h' hok => ?_
    rw [hrefused] at hok
    cases hok
  · have hcheck : ∀ hi, Within lo hi x h := by
      refine fun hi => hwithin hi (hgrow hi) fun b' h' hok => ?_
      rw [hgrown] at hok
      injection hok with _ hh
      exact hh ▸ checkAfter_within hl₂ (by rw [hlater.firstBlock]; omega) _
    rw [HeapM.bind_apply, HeapM.discard_ok.mpr ⟨b, hgrown⟩] at hrun
    by_cases hc : h₂.Checkable
    · exact .of_ok (hrun.trans (checkAfter_ok hl₂ hc _)) hcheck
    · obtain ⟨hchecks, hend⟩ := not_checkable_iff.mp hc
      rw [hlater.config] at hchecks
      exact .of_overflow hchecks (hrun.trans (checkAfter_overflow hl₂ hc _)) hend hcheck

/-- Making a heap over an aligned arena, which may give any number of bytes. -/
theorem faultless_setUp {arena : A} (hs : LawfulArena.Sane arena) (hlow : Arena.low arena % 8 = 0)
    (hhigh : Arena.high arena % 8 = 0) (hle : Arena.low arena ≤ Arena.high arena) (memory : Memory)
    (config : Config) :
    Faultless setUp (unmade arena memory config) (Arena.high arena)
      (config.checkEachOp = true) := by
  rcases hx : Arena.extend metadataOverhead arena with ⟨start, a⟩ | ⟨e, a⟩
  · obtain ⟨rfl, hlow', hhigh', hlt, hsane⟩ := LawfulArena.extend_ok hs hx
    have hclaim : claim metadataOverhead (unmade arena memory config) = .ok (Arena.high arena)
        { unmade arena memory config with arena := a } := by
      unfold claim unmade
      rw [hx]
    have hlow₁ : Arena.low a % 8 = 0 := by omega
    have hle₁ : Arena.low a ≤ Arena.high arena := by omega
    have hl : Laid ((unmade arena memory config).foundedAt a (Arena.high arena)) _ Index.empty :=
      laid_epilogue hsane hlow₁ hle₁ hhigh' hhigh hlt rfl rfl (founded_header ..)
        (founded_footer ..) (founded_last ..)
    have hfirst : ((unmade arena memory config).foundedAt a (Arena.high arena)).firstBlock =
        Arena.high arena + 32 := rfl
    have hconfig : ((unmade arena memory config).foundedAt a (Arena.high arena)).config = config :=
      rfl
    have hrun := setUp_founded hclaim hhigh hlow₁ hle₁ hhigh' hlt
    have hwithin : ∀ hi, _ → _ → Within (Arena.high arena) hi setUp (unmade arena memory config) :=
      fun _ => setUp_within hclaim hhigh hlow₁ hle₁ hhigh' hlt hs (Nat.le_refl _)
    obtain ⟨hw, h4⟩ := config.chunkWords_bounds
    have hgrown := faultless_grown hl (Nat.le_of_eq hfirst.symm) hw h4 hrun hwithin
    rwa [hconfig] at hgrown
  · have hclaim : claim metadataOverhead (unmade arena memory config) = .error (.refused (.arena e))
        { unmade arena memory config with arena := a } := by
      unfold claim unmade
      rw [hx]
    have hrun : setUp (unmade arena memory config) = .error (.refused (.arena e))
        { unmade arena memory config with arena := a } := by
      simp only [setUp, HeapM.bind_apply, hclaim]
    exact .of_refused hrun fun hi => .halt hclaim (claim_within hs _)

/-! ## Words -/

/-- What is added, subtracted and rounded without a check gives words. -/
structure InWords (h : Heap A) : Prop where
  /-- The sums under the rounding of chunks and of requests. -/
  chunk : min h.config.chunkSize maxChunkSize + wordSize < wordLimit ∧
  h.config.chunkWords * wordSize < wordLimit
  request : ∀ request size, blockSize request = .ok size → request + wordSize + wordSize < wordLimit
  low_le : h.bounds.low + metadataOverhead ≤ h.firstBlock
  first_le : h.firstBlock ≤ h.bounds.high
  high_lt : h.bounds.high < wordLimit
  /-- A block that is accepted has a payload. -/
  payload : ∀ addr, checkAddress addr h = .ok () h → minBlock ≤ (h.tagAt addr).size
  tally : ∀ s, stats h = .ok s h → s.allocatedBytes + s.freeBytes ≤ s.arenaBytes
  bucket : ∀ size cls, classOf size = .ok cls → cls < bucketCount

theorem Laid.inWords (hl : Laid h row idx) : h.InWords := by
  have hchunk : h.config.chunkBytes ≤ 9223372036854775800 := h.config.chunkBytes_le
  have hwords := h.config.chunkWords_mul
  have hmin : min h.config.chunkSize maxChunkSize ≤ 9223372036854775800 := Nat.min_le_right _ _
  refine ⟨⟨?_, ?_⟩, fun request size hblock => ?_, hl.tiled.low_le, hl.tiled.row.le,
    hl.tiled.high_lt, fun addr hrun => ?_, fun s hrun => ?_,
    fun size cls hcls => ?_⟩
  · simp only [wordSize, wordLimit]
    omega
  · simp only [wordSize, wordLimit]
    omega
  · unfold blockSize at hblock
    split at hblock
    · cases hblock
    · simp only [signedMax, doubleWord, wordSize, wordLimit] at *
      omega
  · rw [checkAddress_eq hl] at hrun
    split at hrun
    · cases hrun
    split at hrun
    · cases hrun
    split at hrun
    · cases hrun
    · simp only [minBlock]
      omega
  · rw [stats_laid hl] at hrun
    injection hrun with hs
    subst hs
    obtain ⟨harena, hbytes⟩ := hl.tiled.row.tallied_bytes { arenaBytes := h.bounds.span }
    have hlow := hl.tiled.low_le
    have hle := hl.tiled.row.le
    simp only [Region.span] at harena hbytes ⊢
    omega
  · unfold classOf at hcls
    split at hcls
    · exact Except.ok.inj hcls ▸ sizeClass_lt size
    · cases hcls

end Heap

section Runs

variable {A : Type} [Arena A] [LawfulArena A] {arena : A} {memory : Memory} {config : Config}
  {past : List (Call × Answer)} {w : World A}

/-- A call that the program may make. -/
theorem World.Sound.perform_faultless {row : List Tile} {idx : Index} {call : Call} {lo : Nat}
    (hw : w.Sound row idx) (hlo : lo + 32 ≤ w.heap.firstBlock) (hp : w.Permits call) :
    Heap.Faultless call.perform w.heap lo (w.heap.config.checkEachOp = true) := by
  refine ⟨?_, hw.perform_within hlo hp⟩
  rcases hw.answers hp with ⟨answer, w', -, hrun⟩ | ⟨hchecks, h', hrun, -, hend⟩
  · exact .inl ⟨answer, _, hrun⟩
  · exact .inr ⟨hchecks, h', hrun, Nat.le_of_eq hend.symm⟩

/-- Whatever the settings are, whatever the arena holds and however often it grows: making a
    heap over an aligned arena, every call that the program may make after any run, and every
    question to the heap ends with an answer or a refusal, and keeps to the bytes from the
    heap's start to its end. Only an audit of a heap that ends with the last word but one of the
    address space overflows. -/
theorem Run.faultless (hs : LawfulArena.Sane arena) (hlow : Arena.low arena % 8 = 0)
    (hhigh : Arena.high arena % 8 = 0) (hle : Arena.low arena ≤ Arena.high arena) (memory : Memory)
    (config : Config) :
    Heap.Faultless Heap.setUp (Heap.unmade arena memory config) (Arena.high arena)
      (config.checkEachOp = true) ∧
    ∀ past w, Run arena memory config past w → w.heap.InWords ∧
      (∀ call, w.Permits call →
        Heap.Faultless call.perform w.heap (Arena.high arena) (w.heap.config.checkEachOp = true)) ∧
      (∀ addr, Heap.Faultless (Heap.usableSize addr) w.heap (Arena.high arena) False) ∧
      Heap.Faultless Heap.stats w.heap (Arena.high arena) False ∧
      Heap.Faultless Heap.validate w.heap (Arena.high arena) True ∧
      ∀ verbose, Heap.Faultless (Heap.checkHeap verbose) w.heap (Arena.high arena)
        (verbose = true) := by
  refine ⟨Heap.faultless_setUp hs hlow hhigh hle memory config, fun past w hr => ?_⟩
  obtain ⟨row, idx, hw⟩ := hr.sound hs
  have hlo : Arena.high arena + 32 ≤ w.heap.firstBlock := by
    rw [Heap.firstBlock, (hr.founded hs).prologue, doubleWord]
  exact ⟨hw.laid.inWords, fun call hp => hw.perform_faultless hlo hp,
    Heap.faultless_usableSize hw.laid hlo, Heap.faultless_stats hw.laid hlo,
    Heap.faultless_validate hw.laid hlo, Heap.faultless_checkHeap hw.laid hlo⟩

end Runs

/-- On one page: a block is allocated, and releasing it goes well. -/
theorem Run.faultless_page : ∃ w : World FixedArena, Run page .blank {}
      [(.allocate 56, .ok (some 4128))] w ∧ w.Permits (.release 4128) ∧
    Heap.Faultless (Call.perform (.release 4128)) w.heap 4096
      (w.heap.config.checkEachOp = true) := by
  obtain ⟨w, hr, hholds, -⟩ := Run.of_trial page .blank {} [.allocate 56] [.ok (some 4128)]
      (fun _ => ()) () (by decide +kernel) (by decide +kernel)
  have hp : w.Permits (.release 4128) := .inr (.inl (by rw [hholds]; decide))
  obtain ⟨-, hcalls, -⟩ :=
    (Run.faultless (A := FixedArena) trivial (by decide) (by decide) (by decide) .blank {}).2 _ w hr
  exact ⟨w, hr, hp, hcalls _ hp⟩

/-- The arena gives all but the last word of the address space to a request that fits, and then
    the check of the heap overflows. -/
theorem Run.allocation_overruns :
    ∃ (w : World FixedArena) (h : Heap FixedArena), LawfulArena.Sane brink ∧
    Arena.low brink % 8 = 0 ∧ Arena.high brink % 8 = 0 ∧
    Run brink .blank { checkEachOp := true } [] w ∧
    w.Permits (.allocate 300) ∧
    Call.perform (.allocate 300) w.heap = .error (.fault .overflow) h := by
  obtain ⟨w, hr, -, hlook⟩ := Run.of_trial brink .blank { checkEachOp := true } [] []
    (Heap.stop? (Call.perform (.allocate 300))) (some (.fault .overflow)) (by decide +kernel)
      (by decide +kernel)
  obtain ⟨h, hstop⟩ := Heap.stop_some hlook
  exact ⟨w, h, trivial, by decide, by decide, hr, trivial, hstop⟩

end BoundaryTag
