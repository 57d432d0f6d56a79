/-
  BoundaryTag.Proofs.Accepted — the audit finds nothing in a sound store.

  Each free block of a sound row is met by both walks: by the physical one with its footer, and
  by the walk over its list between the neighbours that its links name. So the two walks count
  the same blocks. The only other thing the audit needs is that the high end can be rounded up
  to a word (`Sound.accepted`); where it cannot, the audit overflows (`Sound.overflows`).
-/

import BoundaryTag.Proofs.Audited
import BoundaryTag.Proofs.Blocks
import Mathlib.Data.List.Nodup

namespace BoundaryTag

open Audit Checking

variable {r : Region} {first : Nat} {s : Store} {m : Memory} {row : List Tile} {idx : Index}
  {t : Tile}

/-- A covering index has just these members. -/
theorem Covers.perm {es : List Entry} (h : Covers idx es) (hn : es.Nodup)
    (hd : ∀ c, (idx c).Nodup) :
    ((List.range bucketCount).flatMap idx).Perm es := by
  refine (List.perm_ext_iff_of_nodup ?_ hn).mpr ?_
  · refine List.nodup_flatMap.mpr ⟨fun c _ => hd c, ?_⟩
    refine List.nodup_range.imp_of_mem fun _ _ hne => ?_
    intro e h1 h2
    exact hne (((h _ e).mp h1).1.symm.trans ((h _ e).mp h2).1)
  · intro e
    rw [List.mem_flatMap]
    constructor
    · rintro ⟨c, -, he⟩
      exact ((h c e).mp he).2
    · intro he
      exact ⟨sizeClass e.size, List.mem_range.mpr (sizeClass_lt _), (h _ e).mpr ⟨rfl, he⟩⟩

namespace Sound

/-- A tile is seen by the physical walk, if it is not the epilogue. -/
theorem seen (h : Sound r first s row idx) (ht : t ∈ row) (h32 : 32 ≤ t.tag.size) :
    Seen r s.memory t.tag.prevAlloc t := by
  have hfit := h.tiled.fits ht
  have hlt := h.tiled.high_lt
  obtain ⟨hlow, hle, hhigh⟩ := h.tiled.within ht
  have hstop : t.stop = t.bp + t.tag.size := rfl
  refine ⟨h.tiled.row.aligned h.tiled.aligned ht, by omega, h.tiled.tag ht, h32, hhigh, rfl, ?_⟩
  intro hfree
  refine ⟨h.spaced t ht hfree, ⟨t.tag, ?_, rfl, hfree⟩, ?_⟩
  · have hfoot := (h.tiled.written t ht).footer hfree
    simp only [Region.footerTag, Region.footer, Reading.bind_apply, h.tiled.size ht, Except.bind,
      Reading.lift_apply, checkedAdd_ok (show t.bp + t.tag.size < wordLimit by omega),
      checkedSub_ok (show doubleWord ≤ t.bp + t.tag.size by simp only [doubleWord]; omega),
      doubleWord, Region.read_eq (show r.low ≤ t.bp + t.tag.size - 16 by omega)
      (show t.bp + t.tag.size - 16 + 8 ≤ r.high by omega), Reading.pure_apply]
    rw [← hstop, hfoot, Tag.decode_encode hfit.whole]
  · have hmem := h.filed.mem (mem_vacant.mpr ⟨t, ht, hfree, rfl⟩)
    obtain ⟨pre, post, hsplit⟩ := List.append_of_mem hmem
    exact ⟨_, h.filed.files.links hsplit⟩

theorem swept (h : Sound r first s row idx) (hhigh : r.high + 8 < wordLimit) :
    Swept r s.memory first true row := by
  have hlow := h.tiled.low_le
  suffices ∀ {a p ts}, Row r.high a p ts → (∀ t ∈ ts, t ∈ row) → Swept r s.memory a p ts from
    this h.tiled.row fun _ ht => ht
  intro a p ts hrow
  induction hrow with
  | epilogue p =>
    intro hsub
    have ht := hsub _ List.mem_cons_self
    obtain ⟨h1, -, -⟩ := h.tiled.within ht
    simp only at h1
    exact .epilogue (h.tiled.row.aligned h.tiled.aligned ht) hhigh (by omega)
      (h.tiled.written _ ht).header
  | @block a p tag ts hp _ h32 _ ih =>
    intro hsub
    have ht := hsub _ List.mem_cons_self
    exact .block (t := ⟨a, tag⟩) (hp ▸ h.seen ht h32)
      (ih fun u hu => hsub u (List.mem_cons_of_mem _ hu))

theorem listed (h : Sound r first s row idx) (c : Nat) :
    Listed r s.memory first c none 0 (idx c) := by
  have hf := h.filed.files
  suffices ∀ pre post lastSize, idx c = pre ++ post →
      (∀ e ∈ post, isExact c = false → lastSize ≤ e.size) →
      Listed r s.memory first c (lastOr none pre) lastSize post from
        this [] _ 0 rfl fun _ _ _ => Nat.zero_le _
  intro pre post
  induction post generalizing pre with
  | nil => intros; trivial
  | cons e post ih =>
    intro lastSize hsplit hsorted
    have he : e ∈ idx c := hsplit ▸ by simp
    obtain ⟨hc, hv⟩ := (h.filed.covers c e).mp he
    obtain ⟨t, ht, hfree, rfl⟩ := mem_vacant.mp hv
    have hfit := h.tiled.fits ht
    have hroom := hfit.room hfree
    have hlt := h.tiled.high_lt
    have hb := h.tiled.row.bounds ht
    simp only [Tile.stop] at hb
    refine ⟨⟨hb.1, by simp only [Tile.entry]; omega, h.tiled.row.aligned h.tiled.aligned ht,
      by simp only [Tile.entry]; omega,
      ⟨t.tag, h.tiled.tag ht, hfree, rfl⟩, hroom, by simp only [Tile.entry]; omega, hc,
      hsorted _ List.mem_cons_self, hf.links hsplit⟩, ?_⟩
    have := ih (pre ++ [t.entry]) t.tag.size
        (by rw [hsplit, List.append_assoc]; rfl) fun f hmem hex => by
      have hpair := hf.ascending c hex
      rw [hsplit] at hpair
      exact (List.pairwise_cons.mp (List.pairwise_append.mp hpair).2.1).1 f hmem
    rwa [lastOr_append] at this

/-- The audit finds nothing. -/
theorem accepted (h : Sound r first s row idx) {prologue : Nat} (hfirst : first = prologue + 16)
    (hp : s.memory.word (prologue - 8) = Tag.encode ⟨16, true, true⟩ ∧
      s.memory.word prologue = Tag.encode ⟨16, true, true⟩) (hhigh : r.high + 8 < wordLimit) :
    Passes (validate r s.buckets prologue) s.memory (tallied { arenaBytes := r.span } row) := by
  have hlow := h.tiled.low_le
  have hle := h.tiled.row.le
  refine validate_ok.mpr ⟨⟨by omega, by omega, hp⟩, row, idx, hfirst ▸ h.swept hhigh,
    fun c _ => ⟨h.filed.files.heads c, hfirst ▸ h.listed c⟩,
    (h.filed.covers.perm h.tiled.nodup_vacant h.filed.files.nodup).length_eq, rfl⟩

/-- Where the high end cannot be rounded up to a word, the physical walk overflows when it gets
    there. -/
theorem overflows (h : Sound r first s row idx) {prologue : Nat} (hfirst : first = prologue + 16)
    (hp : s.memory.word (prologue - 8) = Tag.encode ⟨16, true, true⟩ ∧
      s.memory.word prologue = Tag.encode ⟨16, true, true⟩) (hhigh : wordLimit ≤ r.high + 8) :
    (validate r s.buckets prologue).run s.memory = .error .overflow := by
  have hlow := h.tiled.low_le
  have hle := h.tiled.row.le
  have hwalk : ∀ {a p ts}, Row r.high a p ts → (∀ t ∈ ts, t ∈ row) → ∀ {w : Walk}, w.prevAlloc = p →
      w.prevFree.isSome = !w.prevAlloc →
      (walkFrom r s.memory w a).outcome = .error .overflow := by
    intro a p ts hrow
    induction hrow with
    | epilogue p =>
      intro _ w _ _
      have hrun : (inspect r w r.high).run s.memory = .error .overflow := by
        have : isAligned r.high = .error .overflow := by rw [isAligned, align_overflow hhigh]; rfl
        rw [inspect, this]
        rfl
      rw [walkFrom, hrun]
    | @block a p tag ts hp _ h32 _ ih =>
      intro hsub w hw hfree
      obtain hseen : Seen r s.memory w.prevAlloc ⟨a, tag⟩ :=
        hw ▸ hp ▸ h.seen (hsub _ List.mem_cons_self) h32
      obtain ⟨block, hblock⟩ := hseen.block
      have htag : block.tag = tag := (block_tile hseen.tag hblock).2
      have hrun := (inspect_some (x := ⟨block, a + tag.size, by omega, hseen.stop_le⟩) hfree).mpr
          ⟨tag, hseen, rfl, hblock⟩
      unfold Passes at hrun
      rw [walkFrom, hrun]
      exact ih (fun u hu => hsub u (List.mem_cons_of_mem _ hu)) (by simp only [Walk.pass, htag])
        (prevFree_pass w block)
  have hprologue := checkPrologue_ok.mpr
      (show r.low + 8 ≤ prologue ∧ prologue + 8 ≤ r.high ∧ _ from ⟨by omega, by omega, hp⟩)
  have hrun : (walk r s.memory prologue).outcome = .error .overflow := by
    unfold Passes at hprologue
    rw [walk, hprologue]
    exact hwalk (hfirst ▸ h.tiled.row) (fun _ ht => ht) rfl rfl
  have hvalidate : (validate r s.buckets prologue).run s.memory =
      (walk r s.memory prologue).outcome.bind _ := rfl
  rw [hvalidate, hrun]
  rfl

end Sound

end BoundaryTag
