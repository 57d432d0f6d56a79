/-
  BoundaryTag.Proofs.Audited — what an audit that finds nothing has seen, for any memory at all.

  The audit believes a header when the header is in its place, in no other way: bit 2 of a word
  is not looked at, and a footer need only have the size. `Swept` is a row as the physical walk
  sees it, `Listed` a list as the other walk sees it. Each walk succeeds exactly when there is
  such a row (`walkFrom_ok`) or list (`checkList_ok`), and the audit when the two have the same
  number of free blocks (`validate_ok`).
-/

import BoundaryTag.Audit
import BoundaryTag.Proofs.Tagged
import BoundaryTag.Proofs.Threaded
import Mathlib.Data.List.Basic

namespace BoundaryTag

/-! ## Checks that find nothing -/

namespace Checking

variable {α β : Type} {m : Memory}

/-- The check goes through with this result. -/
def Passes (x : Checking α) (m : Memory) (a : α) : Prop := x.run m = .ok (.ok a)

theorem passes_pure {a b : α} : Passes (pure a) m b ↔ a = b := by
  simp [Passes, pure, ExceptT.pure, ExceptT.mk, ExceptT.run, ReaderT.pure, Except.pure]

theorem passes_throw {c : Corruption} {a : α} : Passes (throw c) m a ↔ False := by
  simp [Passes, throw, throwThe, MonadExceptOf.throw, ExceptT.mk, ExceptT.run, pure,
    ReaderT.pure, Except.pure]

theorem passes_bind {x : Checking α} {f : α → Checking β} {b : β} :
    Passes (x >>= f) m b ↔ ∃ a, Passes x m a ∧ Passes (f a) m b := by
  have : (x >>= f).run m = (x.run m).bind fun a => ExceptT.bindCont f a m := rfl
  unfold Passes
  rw [this]
  rcases hx : x.run m with fault | c | a
  · simp [Except.bind]
  · simp [Except.bind, ExceptT.bindCont, pure, ReaderT.pure, Except.pure]
  · simp [Except.bind, ExceptT.bindCont, ExceptT.run]

theorem passes_reading {x : Reading α} {a : α} : Passes (liftM x) m a ↔ x m = .ok a := by
  have : (liftM x : Checking α).run m = (x m).map Except.ok := rfl
  rw [Passes, this]
  cases x m <;> simp [Except.map]

theorem passes_except {x : Except Fault α} {a : α} : Passes (liftM x) m a ↔ x = .ok a := by
  have : (liftM x : Checking α).run m = x.map Except.ok := rfl
  rw [Passes, this]
  cases x <;> simp [Except.map]

theorem passes_ite {c : Prop} [Decidable c] {x y : Checking α} {a : α} :
    Passes (if c then x else y) m a ↔ c ∧ Passes x m a ∨ ¬ c ∧ Passes y m a := by
  by_cases h : c <;> simp [h]

theorem passes_dite {c : Prop} [Decidable c] {x : c → Checking α} {y : ¬ c → Checking α} {a : α} :
    Passes (if h : c then x h else y h) m a ↔ (∃ h, Passes (x h) m a) ∨ ∃ h, Passes (y h) m a := by
  by_cases h : c <;> simp [h]

end Checking

theorem isAligned_true {addr : Nat} : isAligned addr = .ok true ↔
    addr % 8 = 0 ∧ addr + 8 < wordLimit := by
  by_cases h : addr + wordSize < wordLimit
  · rw [isAligned_eq h]
    simpa using fun _ => h
  · have : isAligned addr = .error .overflow := by
      rw [isAligned, align_overflow (Nat.not_lt.mp h)]
      rfl
    rw [this]
    simp only [reduceCtorEq, false_iff, not_and]
    exact fun _ => h

namespace Audit

variable {r : Region} {m : Memory}

/-! ## The physical walk -/

/-- A block whose header the walk accepts behind an allocated block or a free one, as `p` says. -/
structure Seen (r : Region) (m : Memory) (p : Bool) (t : Tile) : Prop where
  aligned : t.bp % 8 = 0
  bp_lt : t.bp + 8 < wordLimit
  tag : r.tag t.bp m = .ok t.tag
  room : 32 ≤ t.tag.size
  stop_le : t.stop ≤ r.high
  prev : t.tag.prevAlloc = p
  free : t.tag.alloc = false → p = true ∧
    (∃ footer, r.footerTag t.bp m = .ok footer ∧ footer.size = t.tag.size ∧ footer.alloc = false) ∧
    ∃ links, r.links t.bp m = .ok links

open Checking

theorem block_ok {bp : Nat} {tag : Tag} {block : Block} (ht : r.tag bp m = .ok tag) :
    r.block bp m = .ok block ↔
    tag.alloc = true ∧ block = .allocated bp tag ∨
    tag.alloc = false ∧ ∃ footer links, r.footerTag bp m = .ok footer ∧ r.links bp m = .ok links ∧
    block = .free bp tag footer links := by
  simp only [Region.block, Reading.bind_apply, ht, Except.bind]
  cases ha : tag.alloc with
  | true => simpa [Reading.pure_apply] using eq_comm
  | false =>
    simp only [Bool.false_eq_true, if_false, Reading.bind_apply]
    rcases hf : r.footerTag bp m with f | footer <;> rcases hl : r.links bp m with f | links <;>
      simp [Except.bind, Reading.pure_apply, eq_comm]

theorem Seen.block {p : Bool} {t : Tile} (h : Seen r m p t) :
    ∃ block, r.block t.bp m = .ok block := by
  cases ha : t.tag.alloc with
  | true => exact ⟨_, (block_ok h.tag).mpr (.inl ⟨ha, rfl⟩)⟩
  | false =>
    obtain ⟨-, ⟨footer, hfoot, -⟩, links, hlinks⟩ := h.free ha
    exact ⟨_, (block_ok h.tag).mpr (.inr ⟨ha, footer, links, hfoot, hlinks, rfl⟩)⟩

theorem block_tile {bp : Nat} {tag : Tag} {block : Block} (ht : r.tag bp m = .ok tag)
    (hb : r.block bp m = .ok block) :
    block.bp = bp ∧ block.tag = tag := by
  rcases (block_ok ht).mp hb with ⟨-, rfl⟩ | ⟨-, _, _, -, -, rfl⟩ <;> exact ⟨rfl, rfl⟩

theorem prevFree_pass (w : Walk) (block : Block) :
    (w.pass block).prevFree.isSome = !(w.pass block).prevAlloc := by
  simp only [Walk.pass]
  cases block.tag.alloc <;> rfl

theorem inspect_none {w : Walk} {bp : Nat} :
    Passes (inspect r w bp) m none ↔ isAligned bp = .ok true ∧ ∃ tag, r.tag bp m = .ok tag ∧
    tag.size = 0 := by
  simp only [inspect, passes_bind, passes_reading, passes_except, passes_ite, passes_dite,
    passes_throw, passes_pure]
  constructor
  · rintro ⟨a, ha, ⟨-, _, h, -⟩ | ⟨hal, tag, ht, h⟩⟩
    · cases h
    · obtain rfl : a = true := by simpa using hal
      refine ⟨ha, tag, ht, ?_⟩
      rcases h with ⟨h0, -⟩ | ⟨-, ⟨-, ⟨⟩⟩ | ⟨_, ⟨-, ⟨⟩⟩ | ⟨_, ⟨-, _, ⟨⟩, -⟩ | ⟨-, block, hb, h⟩⟩⟩⟩
      · exact h0
      · rcases (block_ok ht).mp hb with ⟨-, rfl⟩ | ⟨-, footer, links, -, -, rfl⟩
        · simp [passes_pure] at h
        · simp only [passes_ite, passes_bind, passes_throw] at h
          rcases h with ⟨-, _, h, -⟩ | ⟨-, h⟩
          · cases h
          · split at h <;> simp [passes_throw, passes_pure] at h
  · rintro ⟨ha, tag, ht, h0⟩
    exact ⟨true, ha, .inr ⟨by simp, tag, ht, .inl ⟨h0, trivial⟩⟩⟩

theorem inspect_some {w : Walk} {bp : Nat} {x : Passed r bp}
    (hw : w.prevFree.isSome = !w.prevAlloc) :
    Passes (inspect r w bp) m (some x) ↔ ∃ tag, Seen r m w.prevAlloc ⟨bp, tag⟩ ∧
    x.next = bp + tag.size ∧ r.block bp m = .ok x.block := by
  simp only [inspect, passes_bind, passes_reading, passes_except, passes_ite, passes_dite,
    passes_throw, passes_pure]
  constructor
  · rintro ⟨a, ha, ⟨-, _, h, -⟩ | ⟨hal, tag, ht, h⟩⟩
    · cases h
    · obtain rfl : a = true := by simpa using hal
      obtain ⟨h8, hlt⟩ := isAligned_true.mp ha
      rcases h with ⟨-, ⟨⟩⟩ |
        ⟨-, ⟨-, ⟨⟩⟩ | ⟨h32, ⟨-, ⟨⟩⟩ | ⟨hin, ⟨-, _, ⟨⟩, -⟩ | ⟨hp, block, hb, h⟩⟩⟩⟩
      · have seen : (tag.alloc = false → w.prevAlloc = true ∧
            (∃ footer, r.footerTag bp m = .ok footer ∧ footer.size = tag.size ∧
              footer.alloc = false) ∧
            ∃ links, r.links bp m = .ok links) → Seen r m w.prevAlloc ⟨bp, tag⟩ :=
          fun hf => ⟨h8, hlt, ht, Nat.not_lt.mp h32, Nat.not_lt.mp hin, by simpa using hp, hf⟩
        rcases (block_ok ht).mp hb with ⟨halloc, rfl⟩ | ⟨-, footer, links, hfoot, hlinks, rfl⟩
        · simp only [passes_pure, Option.some.injEq] at h
          subst h
          exact ⟨tag, seen fun hf => (by rw [halloc] at hf; cases hf), rfl, hb⟩
        · simp only [passes_ite, passes_bind, passes_throw] at h
          rcases h with ⟨-, _, h, -⟩ | ⟨hsize, h⟩
          · cases h
          · have hfoot' : footer.size = tag.size ∧ footer.alloc = false := by simpa using hsize
            split at h
            · simp [passes_throw] at h
            · next hnone =>
              simp only [passes_pure, Option.some.injEq] at h
              subst h
              refine ⟨tag, seen fun _ => ⟨?_, ⟨footer, hfoot, hfoot'⟩, links, hlinks⟩, rfl, hb⟩
              rcases hpf : w.prevFree with _ | n
              · simpa [hpf] using hw
              · exact absurd hpf (hnone n)
  · rintro ⟨tag, hs, hnext, hb⟩
    have ht : r.tag bp m = .ok tag := hs.tag
    have hroom : 32 ≤ tag.size := hs.room
    have hstop : bp + tag.size ≤ r.high := hs.stop_le
    have hprev : tag.prevAlloc = w.prevAlloc := hs.prev
    refine ⟨true, isAligned_true.mpr ⟨hs.aligned, hs.bp_lt⟩,
      .inr ⟨by simp, tag, ht, .inr ⟨by omega, .inr ⟨by simp; omega, .inr ⟨by omega,
      .inr ⟨by simp [hprev], x.block, hb, ?_⟩⟩⟩⟩⟩⟩
    obtain ⟨block, next, h1, h2⟩ := x
    simp only at hnext hb ⊢
    subst hnext
    rcases (block_ok ht).mp hb with ⟨halloc, rfl⟩ | ⟨halloc, footer, links, hfoot, hlinks, rfl⟩
    · simp [passes_pure]
    · obtain ⟨hp, ⟨footer', hf', hsize, hfa⟩, -⟩ := hs.free halloc
      obtain rfl : footer' = footer := by rw [hfoot] at hf'; exact (Except.ok.inj hf').symm
      have hnone : w.prevFree = none := by
        rw [hp] at hw
        simpa using hw
      simp only at hsize
      simp [passes_pure, hsize, hfa, hnone]

theorem close_ok {w : Walk} {bp : Nat} {stats : Stats} : Passes (close r w bp) m stats ↔
    bp = r.high ∧ r.low + 8 ≤ r.high ∧ m.word (r.high - 8) = Tag.encode ⟨0, w.prevAlloc, true⟩ ∧
    stats = w.stats := by
  simp only [close, passes_bind, passes_reading, passes_except, passes_ite, passes_throw,
    passes_pure, Region.read_ok, Region.header_ok]
  constructor
  · rintro ⟨addr, ⟨-, -, h8, haddr⟩, word, ⟨hlow, -, hword⟩, h⟩
    subst haddr hword
    rcases h with ⟨-, _, ⟨⟩, -⟩ | ⟨hc, rfl⟩
    simp only [bne_iff_ne, Bool.or_eq_true, not_or, Decidable.not_not] at hc
    obtain ⟨rfl, hw⟩ := hc
    exact ⟨rfl, by omega, hw, rfl⟩
  · rintro ⟨rfl, hlow, hw, rfl⟩
    refine ⟨_, ⟨by omega, Nat.le_refl _, by omega, rfl⟩, _, ⟨by omega, by omega, rfl⟩,
      .inr ⟨?_, rfl⟩⟩
    simp [hw]

/-- The row that the walk sees from `bp` on, behind an allocated block or a free one, as `p`
    says. -/
inductive Swept (r : Region) (m : Memory) : Nat → Bool → List Tile → Prop
  | epilogue {p : Bool} : r.high % 8 = 0 → r.high + 8 < wordLimit → r.low + 8 ≤ r.high →
      m.word (r.high - 8) = Tag.encode ⟨0, p, true⟩ → Swept r m r.high p [⟨r.high, ⟨0, p, true⟩⟩]
  | block {p : Bool} {t : Tile} {ts : List Tile} : Seen r m p t → Swept r m t.stop t.tag.alloc ts →
      Swept r m t.bp p (t :: ts)

theorem Swept.high_lt {bp : Nat} {p : Bool} {ts : List Tile} (h : Swept r m bp p ts) :
    r.high + 8 < wordLimit := by
  induction h with
  | epilogue _ hlt _ _ => exact hlt
  | block _ _ ih => exact ih

/-- The tally of a row. The epilogue does not count. -/
def tallied (s : Stats) (ts : List Tile) : Stats :=
  ts.foldl (fun s t => if t.tag.size = 0 then s else s.count t.tag) s

theorem walkFrom_step {w : Walk} {bp : Nat} {stats : Stats} :
    (walkFrom r m w bp).outcome = .ok (.ok stats) ↔
    Passes (inspect r w bp) m none ∧ Passes (close r w bp) m stats ∨
    ∃ x, Passes (inspect r w bp) m (some x) ∧ (walkFrom r m (w.pass x.block) x.next).outcome =
      .ok (.ok stats) := by
  rw [walkFrom]
  unfold Passes
  rcases (inspect r w bp).run m with _ | _ | _ | x <;> simp

/-- The walk ends well exactly when it sees a row, and then it has counted that row's blocks. -/
theorem walkFrom_ok {w : Walk} {bp : Nat} {stats : Stats} (hw : w.prevFree.isSome = !w.prevAlloc) :
    (walkFrom r m w bp).outcome = .ok (.ok stats) ↔ ∃ ts, Swept r m bp w.prevAlloc ts ∧
    stats = tallied w.stats ts := by
  constructor
  · intro h
    induction hn : r.high - bp using Nat.strongRecOn generalizing w bp with
    | ind n ih =>
      subst hn
      rcases walkFrom_step.mp h with ⟨hi, hc⟩ | ⟨x, hi, hrest⟩
      · obtain ⟨ha, -⟩ := inspect_none.mp hi
        obtain ⟨rfl, hlow, hword, rfl⟩ := close_ok.mp hc
        obtain ⟨h8, hlt⟩ := isAligned_true.mp ha
        exact ⟨_, .epilogue h8 hlt hlow hword, rfl⟩
      · obtain ⟨tag, hseen, hnext, hblock⟩ := (inspect_some hw).mp hi
        have htag : x.block.tag = tag := (block_tile hseen.tag hblock).2
        have h1 := x.lt_next
        have h2 := x.next_le
        obtain ⟨ts, hts, hstats⟩ := ih _ (by omega) (prevFree_pass w x.block) hrest rfl
        have hroom : 32 ≤ tag.size := hseen.room
        simp only [Walk.pass, htag, hnext] at hts hstats
        refine ⟨⟨bp, tag⟩ :: ts, .block hseen hts, ?_⟩
        rw [hstats, tallied, tallied, List.foldl_cons, if_neg (by simp only; omega)]
  · rintro ⟨ts, hts, rfl⟩
    generalize hp : w.prevAlloc = p at hts
    induction hts generalizing w with
    | epilogue h8 hlt hlow hword =>
      refine walkFrom_step.mpr (.inl
        ⟨inspect_none.mpr ⟨isAligned_true.mpr ⟨h8, hlt⟩, _, Region.tag_eq hlow (Nat.le_refl _), ?_⟩,
        close_ok.mpr ⟨rfl, hlow, hp ▸ hword, rfl⟩⟩)
      rw [hword, Tag.decode_encode rfl]
    | @block p t ts hseen _ ih =>
      subst hp
      obtain ⟨block, hblock⟩ := hseen.block
      have htag : block.tag = t.tag := (block_tile hseen.tag hblock).2
      have hroom := hseen.room
      refine walkFrom_step.mpr
        (.inr ⟨⟨block, t.stop, by simp only [Tile.stop]; omega, hseen.stop_le⟩,
        (inspect_some hw).mpr ⟨t.tag, hseen, rfl, hblock⟩, ?_⟩)
      have := ih (prevFree_pass w block) (by simp only [Walk.pass, htag])
      rw [this]
      simp only [Walk.pass, htag, tallied, List.foldl_cons]
      rw [if_neg (by omega)]

/-! ## The lists -/

/-- A member that the walk accepts between its neighbours. -/
structure Met (r : Region) (m : Memory) (first bucket : Nat) (prev next : Option Nat)
    (lastSize : Nat) (e : Entry) : Prop where
  first_le : first ≤ e.bp
  lt_high : e.bp < r.high
  aligned : e.bp % 8 = 0
  bp_lt : e.bp + 8 < wordLimit
  tag : ∃ tag, r.tag e.bp m = .ok tag ∧ tag.alloc = false ∧ tag.size = e.size
  room : 32 ≤ e.size
  stop_le : e.bp + (e.size - 8) ≤ r.high
  classed : sizeClass e.size = bucket
  ascending : isExact bucket = false → lastSize ≤ e.size
  links : r.links e.bp m = .ok ⟨next, prev⟩

/-- The members that the walk over one list meets behind `prev`. -/
def Listed (r : Region) (m : Memory) (first bucket : Nat) : Option Nat → Nat → List Entry → Prop
  | _, _, [] => True
  | prev, lastSize, e :: es =>
    Met r m first bucket prev (firstOr es none) lastSize e ∧
      Listed r m first bucket (some e.bp) e.size es

/-- The walk goes past one member if it accepts it, and stands at its next link. -/
theorem checkList_step {first bucket inHeap inIndex n lastSize bp : Nat} {prev : Option Nat} :
    Passes (checkList r first bucket inHeap inIndex prev lastSize (some bp)) m n ↔
      ∃ e next, e.bp = bp ∧ inIndex < inHeap ∧ Met r m first bucket prev next lastSize e ∧
        Passes (checkList r first bucket inHeap (inIndex + 1) (some bp) e.size next) m n := by
  rw [checkList]
  simp only [passes_bind, passes_reading, passes_except, passes_ite, passes_throw]
  constructor
  · intro h
    rcases h with ⟨hlt, h⟩ | ⟨-, ⟨⟩⟩
    rcases h with ⟨-, _, ⟨⟩, -⟩ | ⟨hin, a, ha, h⟩
    rcases h with ⟨-, _, ⟨⟩, -⟩ | ⟨hal, tag, ht, h⟩
    rcases h with ⟨-, _, ⟨⟩, -⟩ | ⟨hfree, h⟩
    rcases h with ⟨-, _, ⟨⟩, -⟩ | ⟨hsize, cls, hcls, h⟩
    rcases h with ⟨-, _, ⟨⟩, -⟩ | ⟨hbucket, h⟩
    rcases h with ⟨-, _, ⟨⟩, -⟩ | ⟨hsorted, ⟨next, back⟩, hlinks, h⟩
    rcases h with ⟨-, _, ⟨⟩, -⟩ | ⟨hprev, h⟩
    obtain rfl : a = true := by simpa using hal
    obtain ⟨h8, hbp⟩ := isAligned_true.mp ha
    simp only [Bool.or_eq_true, decide_eq_true_eq, not_or, Nat.not_lt, Nat.not_le, minBlock,
      wordSize] at hin hsize
    simp only [Bool.not_eq_true] at hfree
    simp only [bne_iff_ne, Decidable.not_not] at hbucket hprev
    have hclass : sizeClass tag.size = bucket := by
      rw [classOf, if_pos hsize.1] at hcls
      exact (Except.ok.inj hcls).trans hbucket
    refine ⟨⟨bp, tag.size⟩, next, rfl, hlt,
      ⟨hin.1, hin.2, h8, hbp, ⟨tag, ht, hfree, rfl⟩, hsize.1, hsize.2, hclass, ?_, ?_⟩, h⟩
    · intro hex
      simpa [hex] using hsorted
    · rw [hlinks, hprev]
  · rintro ⟨e, next, rfl, hlt, hmet, h⟩
    obtain ⟨tag, ht, hfree, hsize⟩ := hmet.tag
    have hroom := hmet.room
    have hin := hmet.first_le
    have hhigh := hmet.lt_high
    have hstop := hmet.stop_le
    refine .inl ⟨hlt, .inr ⟨by simp; omega, true, isAligned_true.mpr ⟨hmet.aligned, hmet.bp_lt⟩,
      .inr ⟨by simp, tag, ht,
      .inr ⟨by simp [hfree], .inr ⟨by simp; omega, bucket, ?_,
        .inr ⟨by simp, .inr ⟨?_, _, hmet.links, .inr ⟨by simp, ?_⟩⟩⟩⟩⟩⟩⟩⟩
    · rw [hsize, classOf, if_pos hroom, hmet.classed]
    · rw [hsize]
      simpa using hmet.ascending
    · rw [hsize]
      exact h

theorem checkList_ok {first bucket inHeap inIndex n lastSize : Nat} {prev cur : Option Nat}
    (hle : inIndex ≤ inHeap) :
    Passes (checkList r first bucket inHeap inIndex prev lastSize cur) m n ↔
      ∃ es, cur = firstOr es none ∧ Listed r m first bucket prev lastSize es ∧
        n = inIndex + es.length ∧ n ≤ inHeap := by
  constructor
  · intro h
    induction hk : inHeap -
        inIndex using Nat.strongRecOn generalizing inIndex prev lastSize cur with
    | ind k ih =>
      subst hk
      cases cur with
      | none =>
        rw [checkList, passes_pure] at h
        exact ⟨[], rfl, trivial, h.symm, h ▸ hle⟩
      | some bp =>
        obtain ⟨e, next, rfl, hlt, hmet, h⟩ := checkList_step.mp h
        obtain ⟨es, rfl, hlisted, hn, hle'⟩ := ih _ (by omega) (by omega) h rfl
        exact ⟨e :: es, rfl, ⟨hmet, hlisted⟩, by rw [hn, List.length_cons]; omega, hle'⟩
  · rintro ⟨es, rfl, hlisted, rfl, hle'⟩
    induction es generalizing inIndex prev lastSize with
    | nil => rw [firstOr, checkList, passes_pure]; rfl
    | cons e es ih =>
      obtain ⟨hmet, hrest⟩ := hlisted
      simp only [List.length_cons] at hle'
      refine checkList_step.mpr ⟨e, firstOr es none, rfl, by omega, hmet, ?_⟩
      have hpass : Passes (checkList r first bucket inHeap (inIndex + 1) (some e.bp) e.size
          (firstOr es none)) m (inIndex + 1 + es.length) :=
        ih (by omega) hrest (by omega)
      rwa [Nat.add_assoc, Nat.add_comm 1] at hpass

/-- Lists for some buckets, as the walk meets them. -/
def Lists (r : Region) (m : Memory) (buckets : Buckets) (first : Nat) (idx : Index)
    (cs : List Nat) : Prop :=
  ∀ c ∈ cs, buckets.head c = firstOr (idx c) none ∧ Listed r m first c none 0 (idx c)

theorem checkLists_ok {buckets : Buckets} {first inHeap inIndex : Nat} {cs : List Nat}
    (hcs : cs.Nodup) (hle : inIndex ≤ inHeap) :
    Passes (checkLists r buckets first inHeap inIndex cs) m () ↔
      ∃ idx, Lists r m buckets first idx cs ∧ inIndex + (cs.flatMap idx).length = inHeap := by
  induction cs generalizing inIndex with
  | nil =>
    simp only [checkLists, passes_ite, passes_throw, passes_pure, bne_iff_ne, Decidable.not_not,
      and_false, and_true, false_or, List.flatMap_nil, List.length_nil, Nat.add_zero]
    exact ⟨fun h => ⟨Index.empty, fun c hc => absurd hc List.not_mem_nil, h⟩, fun ⟨_, _, h⟩ => h⟩
  | cons c cs ih =>
    obtain ⟨hc, hcs⟩ := List.nodup_cons.mp hcs
    rw [checkLists, passes_bind]
    simp only [checkList_ok hle]
    constructor
    · rintro ⟨n, ⟨es, hhead, hlisted, rfl, hn⟩, h⟩
      obtain ⟨idx, hlists, hsum⟩ := (ih hcs hn).mp h
      have hother : ∀ d ∈ cs, (if d = c then es else idx d) = idx d :=
        fun d hd => if_neg fun he : d = c => hc (he ▸ hd)
      refine ⟨fun d => if d = c then es else idx d, ?_, ?_⟩
      · intro d hd
        rcases List.mem_cons.mp hd with rfl | hd
        · simpa using ⟨hhead, hlisted⟩
        · simpa only [hother d hd] using hlists d hd
      · rw [List.flatMap_cons, List.flatMap_congr hother, if_pos rfl, List.length_append]
        omega
    · rintro ⟨idx, hlists, hsum⟩
      rw [List.flatMap_cons, List.length_append] at hsum
      obtain ⟨hhead, hlisted⟩ := hlists c List.mem_cons_self
      refine ⟨_, ⟨idx c, hhead, hlisted, rfl, by omega⟩,
        (ih hcs (by omega)).mpr ⟨idx, fun d hd => hlists d (List.mem_cons_of_mem _ hd), by omega⟩⟩

/-! ## The audit -/

theorem checkPrologue_ok {prologue : Nat} : Passes (checkPrologue r prologue) m () ↔
    r.low + 8 ≤ prologue ∧ prologue + 8 ≤ r.high ∧
    m.word (prologue - 8) = Tag.encode ⟨16, true, true⟩ ∧
    m.word prologue = Tag.encode ⟨16, true, true⟩ := by
  simp only [checkPrologue, passes_bind, passes_reading, passes_except, passes_ite, passes_throw,
    Region.read_ok, Region.header_ok]
  constructor
  · rintro ⟨_, ⟨-, -, h8, rfl⟩, header, ⟨hlow, -, hheader⟩, footer, ⟨-, hhigh, hfooter⟩, h⟩
    rw [hheader, hfooter]
    rcases h with ⟨-, _, ⟨⟩, -⟩ | ⟨hc, -⟩
    simp only [bne_iff_ne, Bool.or_eq_true, not_or, Decidable.not_not] at hc
    exact ⟨by omega, hhigh, hc⟩
  · rintro ⟨h1, h2, h3, h4⟩
    refine ⟨_, ⟨by omega, by omega, by omega, rfl⟩, _, ⟨by omega, by omega, rfl⟩, _,
      ⟨by omega, h2, rfl⟩, .inr ⟨?_, passes_pure.mpr rfl⟩⟩
    simp [h3, h4]

theorem Swept.freeBlocks {p : Bool} {bp : Nat} {row : List Tile} (h : Swept r m bp p row)
    (s : Stats) :
    (tallied s row).freeBlocks = s.freeBlocks + (vacant row).length := by
  induction h generalizing s with
  | epilogue => rfl
  | @block p t ts hseen _ ih =>
    have := hseen.room
    rw [tallied, List.foldl_cons, if_neg (by omega), ← tallied, ih, Stats.count]
    cases ha : t.tag.alloc with
    | true => rw [vacant_cons_alloc ha]; rfl
    | false => rw [vacant_cons_free ha, List.length_cons]; simp; omega

/-- The audit finds nothing exactly when the prologue is intact and its two walks see a row and
    lists with the same number of free blocks. -/
theorem validate_ok {buckets : Buckets} {prologue : Nat} {stats : Stats} :
    Passes (validate r buckets prologue) m stats ↔
    (r.low + 8 ≤ prologue ∧ prologue + 8 ≤ r.high ∧
      m.word (prologue - 8) = Tag.encode ⟨16, true, true⟩ ∧
      m.word prologue = Tag.encode ⟨16, true, true⟩) ∧
    ∃ row idx, Swept r m (prologue + 16) true row ∧
      Lists r m buckets (prologue + 16) idx (List.range bucketCount) ∧
      ((List.range bucketCount).flatMap idx).length = (vacant row).length ∧
      stats = tallied { arenaBytes := r.span } row := by
  have hwalk : ∀ a, Passes (ExceptT.mk fun m => (walk r m prologue).outcome : Checking Stats) m a ↔
      Passes (checkPrologue r prologue) m () ∧ ∃ row, Swept r m (prologue + 16) true row ∧
      a = tallied { arenaBytes := r.span } row := by
    intro a
    rw [← walkFrom_ok (w := ⟨{ arenaBytes := r.span }, true, none⟩) rfl]
    show (walk r m prologue).outcome = _ ↔ _
    rw [walk]
    unfold Passes
    rcases (checkPrologue r prologue).run m with _ | _ | _ <;> simp
  rw [validate, passes_bind]
  simp only [hwalk, passes_bind, passes_pure, checkPrologue_ok]
  constructor
  · rintro ⟨a, ⟨hp, row, hrow, rfl⟩, _, h, rfl⟩
    obtain ⟨idx, hlists, hsum⟩ := (checkLists_ok List.nodup_range (Nat.zero_le _)).mp h
    rw [hrow.freeBlocks] at hsum
    exact ⟨hp, row, idx, hrow, hlists, by simpa using hsum, rfl⟩
  · rintro ⟨hp, row, idx, hrow, hlists, hsum, rfl⟩
    refine ⟨_, ⟨hp, row, hrow, rfl⟩, (),
      (checkLists_ok List.nodup_range (Nat.zero_le _)).mpr ⟨idx, hlists, ?_⟩, rfl⟩
    rw [hrow.freeBlocks]
    simpa using hsum

end Audit

end BoundaryTag
