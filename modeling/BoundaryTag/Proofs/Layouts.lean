/-
  BoundaryTag.Proofs.Layouts — what a global heap does for a layout.

  For an alignment of at most a word an address is that of a block. For any other the block is
  larger by the alignment: as both are whole words, the block's address and a word more, rounded
  up, leaves room for the size.

  Proved: an allocation gives an address with a seat in a new block, or changes nothing
  (`allocate_spec`, `zeroAllocate_spec`); so does a reallocation, which gives up the old block
  for the new one and carries the bytes over (`reallocate_spec`); and a deallocation gives up
  the block that the address has its seat in (`deallocate_spec`).
-/

import BoundaryTag.Proofs.Opened
import BoundaryTag.Proofs.Pool
import BoundaryTag.Proofs.Seats

namespace BoundaryTag

/-! ## Rounding within a block -/

/-- Behind one word of a block, the next multiple of a large alignment is at most that alignment
    above the block's address. -/
theorem alignTo_within {a b : Nat} (hpow : a.isPowerOfTwo) (hlarge : wordSize < a) (h8 : b % 8 = 0)
    (hlt : b + 8 + a < wordLimit) :
    ∃ p, alignTo (b + wordSize) a = .ok p ∧ p % a = 0 ∧ b + 8 ≤ p ∧ p ≤ b + a := by
  obtain ⟨k, rfl⟩ := hpow
  have hk : k ≤ 64 := by
    by_contra hk
    have := Nat.pow_le_pow_right (show 0 < 2 by decide) (show 64 ≤ k by omega)
    have hlimit : wordLimit = 2 ^ 64 := by decide
    omega
  have hk4 : 3 ≤ k := by
    by_contra hk4
    have := Nat.pow_le_pow_right (show 0 < 2 by decide) (show k ≤ 3 by omega)
    simp only [wordSize] at hlarge
    omega
  have hdvd : 8 ∣ 2 ^ k := Nat.pow_dvd_pow 2 hk4
  have hround : alignTo (b + wordSize) (1 <<< k) = .ok ((b + wordSize + 1 <<< k - 1) >>> k <<< k) :=
    alignTo_powerOfTwo hk (by rw [Nat.one_shiftLeft]; exact hlt)
  rw [Nat.one_shiftLeft, Nat.shiftLeft_eq, Nat.shiftRight_eq_div_pow] at hround
  have hle := Nat.div_mul_le_self (b + wordSize + 2 ^ k - 1) (2 ^ k)
  have hgt := Nat.lt_div_mul_add (a := b + wordSize + 2 ^ k - 1) (Nat.two_pow_pos k)
  have hmod : (b + wordSize + 2 ^ k - 1) / 2 ^ k * 2 ^ k % 2 ^ k = 0 := Nat.mul_mod_left _ _
  generalize (b + wordSize + 2 ^ k - 1) / 2 ^ k * 2 ^ k = p at hround hle hgt hmod
  have hp8 : 8 ∣ p := Nat.dvd_trans hdvd (Nat.dvd_of_mod_eq_zero hmod)
  simp only [wordSize] at hle hgt hlarge
  exact ⟨p, hround, hmod, by omega, by omega⟩

variable {A : Type} [Arena A] [LawfulArena A] {h h' h₁ h₂ : Heap A} {row row' row₁ : List Tile}
  {idx idx' : Index} {e e' : Entry} {l : Layout} {n p : Nat}

namespace Heap

theorem Allocated.same (ha : Allocated h h₁ row row' n e) (hs : Same h₁ h₂) :
    Allocated h h₂ row row' n e :=
  ⟨ha.later.trans hs.later, ha.gained, ha.room, hs.store ▸ ha.kept⟩

omit [LawfulArena A] in
theorem Allocated.of_le {n' : Nat} (ha : Allocated h h' row row' n e) (hle : n' ≤ n) :
    Allocated h h' row row' n' e :=
  ⟨ha.later, ha.gained, Nat.le_trans (Nat.add_le_add_right hle 8) ha.room, ha.kept⟩

omit [LawfulArena A] in
theorem Allocated.mem (ha : Allocated h h' row row' n e) : e ∈ live row' :=
  (ha.gained.mem e).mpr (.inl rfl)

/-- The new block is apart from all others. -/
theorem Allocated.apart (ha : Allocated h h' row row' n e) (hl' : Laid h' row' idx') {f : Entry}
    (hf : f ∈ live row) : f.Apart e := by
  rcases hl'.tiled.live_apart ((ha.gained.mem f).mpr (.inr hf)) ha.mem with rfl | hapart
  · exact absurd rfl (ha.gained.fresh f hf)
  · exact hapart

theorem Released.same {bp : Nat} (hr : Released h h₁ row row' bp) (hs : Same h₁ h₂) :
    Released h h₂ row row' bp :=
  ⟨hs.prologue.trans hr.prologue, hs.config.trans hr.config, hs.bounds.trans hr.bounds, hr.held,
    hs.store ▸ hr.kept⟩

theorem Resized.same (hr : Resized h h₁ row row' e e' n) (hs : Same h₁ h₂) :
    Resized h h₂ row row' e e' n :=
  ⟨hr.later.trans hs.later, hr.swapped, hr.room, hs.store ▸ hr.kept, hs.store ▸ hr.copied⟩

end Heap

omit [LawfulArena A] in
theorem Heap.later_withMemory (h : Heap A) (m : Memory) : Later h (h.withMemory m) :=
  ⟨rfl, rfl, rfl, Nat.le_refl _⟩

open Heap

namespace GlobalHeap

variable {g : GlobalHeap A}

/-! ## Allocating -/

theorem allocateBytes_spec (hl : h.Laid row idx) (hc : h.Checkable) (ho : g.Opens h) (size : Nat) :
    (∃ h', Ends (allocateBytes size) g none h' ∧ h.Same h') ∨
    ∃ e h' row' idx', Ends (allocateBytes size) g (some e.bp) h' ∧ h'.Laid row' idx' ∧
      Allocated h h' row row' size e := by
  rcases Heap.allocate_spec hl hc (max size 1) with
    ⟨h', hrun, hsame⟩ | ⟨e, h', row', idx', hrun, hl', ha⟩
  · exact .inl ⟨_, .allocateBytes ho hrun, hsame.trans (same_muted h')⟩
  · exact .inr ⟨e, _, row', idx', .allocateBytes ho hrun, hl'.same (same_muted h'),
      (ha.same (same_muted h')).of_le (Nat.le_max_left _ _)⟩

/-- A small alignment: the address is the block's. -/
theorem seat_small (hl : h.Laid row idx) (he : e ∈ live row) (hpow : l.align.isPowerOfTwo)
    (hsmall : l.align ≤ wordSize) (hroom : l.size + 8 ≤ e.size) : Seat h.store.memory l e.bp e :=
  .plain hsmall hpow (Pool.live_aligned hl.tiled he) hroom

/-- A large alignment: the address is within the block, and the word below it has the block's
    address. -/
theorem allocateAligned_spec (hl : h.Laid row idx) (hc : h.Checkable) (ho : g.Opens h)
    (hp : l.Proper) (hlarge : wordSize < l.align) :
    (∃ h', Ends (allocateAligned l) g none h' ∧ h.Same h') ∨
    ∃ p e h' row' idx', Ends (allocateAligned l) g (some p) h' ∧ h'.Laid row' idx' ∧
      Allocated h h' row row' l.size e ∧
      Seat h'.store.memory l p e := by
  unfold allocateAligned
  simp only [if_neg (Nat.not_le.mpr hp.padded)]
  rcases allocateBytes_spec hl hc ho (l.size + l.align) with
    ⟨h', hends, hsame⟩ | ⟨e, h₁, row', idx', hends, hl₁, ha⟩
  · exact .inl ⟨h', hends.bind_none rfl, hsame⟩
  have h8 : e.bp % 8 = 0 := Pool.live_aligned hl₁.tiled ha.mem
  have hroom := ha.room
  have hin : e.bp + e.size ≤ h₁.bounds.high := by
    obtain ⟨t, ht, -, rfl, -⟩ := hl₁.tiled.mem_live.mp ha.mem
    exact (hl₁.tiled.row.bounds ht).2.1
  have hhigh := hl₁.tiled.high_lt
  simp only [wordLimit] at hhigh
  obtain ⟨p, hround, hmod, hge, hle⟩ := alignTo_within hp.power hlarge h8
      (show e.bp + 8 + l.align < wordLimit by simp only [wordLimit]; omega)
  obtain ⟨m, hm⟩ : ∃ m, m = h₁.store.memory.setWord (p - wordSize) e.bp := ⟨_, rfl⟩
  obtain ⟨hl', ha'⟩ := ha.withMemory hl₁ (m := m) fun x hx => by
    rw [hm, Memory.byte_setWord, if_neg fun hin =>
      hx ⟨by simp only [wordSize] at hin; omega, by simp only [wordSize] at hin; omega⟩]
  refine .inr ⟨p, e, h₁.withMemory m, row', idx', ?_, hl', ha'.of_le (Nat.le_add_right _ _), ?_⟩
  · have harith : (do
        let aligned ← alignTo (← checkedAdd e.bp wordSize) l.align
        return (aligned, ← checkedSub aligned wordSize) :
          Except Fault (Nat × Nat)) = .ok (p, p - wordSize) := by
      rw [checkedAdd_ok
        (show e.bp + wordSize < wordLimit by simp only [wordLimit, wordSize]; omega)]
      simp only [bind, Except.bind, hround,
        checkedSub_ok (show wordSize ≤ p by simp only [wordSize]; omega)]
      rfl
    rw [hm]
    refine hends.bind_write (fun m => m.setWord (p - wordSize) e.bp) ?_
    simp only [harith]
  · refine ⟨?_, hmod, by omega, fun _ => hge, by simp only [wordSize]; omega⟩
    rw [Layout.block_large hlarge]
    show m.word (p - wordSize) = e.bp
    rw [hm, Memory.word_setWord_of_lt _ (by simp only [wordLimit]; omega)]

theorem allocate_spec (hl : h.Laid row idx) (hc : h.Checkable) (ho : g.Opens h) (hp : l.Proper) :
    (∃ h', Ends (allocate l) g none h' ∧ h.Same h') ∨
    ∃ p e h' row' idx', Ends (allocate l) g (some p) h' ∧ h'.Laid row' idx' ∧
      Allocated h h' row row' l.size e ∧
      Seat h'.store.memory l p e := by
  by_cases hsmall : l.align ≤ wordSize
  · simp only [allocate, if_pos hsmall]
    rcases allocateBytes_spec hl hc ho l.size with hnone | ⟨e, h', row', idx', hends, hl', ha⟩
    · exact .inl hnone
    · exact .inr ⟨e.bp, e, h', row', idx', hends, hl', ha,
        seat_small hl' ha.mem hp.power hsmall ha.room⟩
  · simp only [allocate, if_neg hsmall]
    exact allocateAligned_spec hl hc ho hp (Nat.lt_of_not_le hsmall)

theorem zeroAllocate_spec (hl : h.Laid row idx) (hc : h.Checkable) (ho : g.Opens h)
    (hp : l.Proper) :
    (∃ h', Ends (zeroAllocate l) g none h' ∧ h.Same h') ∨
    ∃ p e h' row' idx', Ends (zeroAllocate l) g (some p) h' ∧ h'.Laid row' idx' ∧
      Allocated h h' row row' l.size e ∧
      Seat h'.store.memory l p e ∧ ∀ i, i < l.size → h'.store.memory.byte (p + i) = 0 := by
  by_cases hsmall : l.align ≤ wordSize
  · simp only [zeroAllocate, if_pos hsmall]
    rcases Heap.zeroAllocate_spec hl hc 1 (max l.size 1) with
      ⟨h', hrun, hsame⟩ | ⟨e, h', row', idx', hrun, hl', ha, hzero⟩
    · exact .inl ⟨_, (Ends.withHeap ho hrun).bind_pure Option.join, hsame.trans (same_muted h')⟩
    · rw [Nat.one_mul] at ha hzero
      have hl'' := hl'.same (same_muted h')
      have ha' := (ha.same (same_muted h')).of_le (Nat.le_max_left l.size 1)
      refine .inr ⟨e.bp, e, _, row', idx', (Ends.withHeap ho hrun).bind_pure Option.join, hl'', ha',
        seat_small hl'' ha'.mem hp.power hsmall ha'.room, ?_⟩
      exact fun i hi => hzero i (Nat.lt_of_lt_of_le hi (Nat.le_max_left _ _))
  · simp only [zeroAllocate, if_neg hsmall]
    rcases allocateAligned_spec hl hc ho hp (Nat.lt_of_not_le hsmall) with
      ⟨h', hends, hsame⟩ | ⟨p, e, h₁, row', idx', hends, hl₁, ha, hseat⟩
    · exact .inl ⟨h', hends.bind_none rfl, hsame⟩
    obtain ⟨m, hm⟩ : ∃ m, m = h₁.store.memory.fill p 0 l.size := ⟨_, rfl⟩
    obtain ⟨hl', ha'⟩ := ha.withMemory hl₁ (m := m) fun x hx => by
      rw [hm, Memory.byte_fill, if_neg fun hin => hx (hseat.payload_of_range hin.1 hin.2)]
    refine .inr ⟨p, e, h₁.withMemory m, row', idx', ?_, hl', ha', ?_, ?_⟩
    · rw [hm]
      exact hends.bind_write (fun m => m.fill p 0 l.size) rfl
    · refine hseat.congr fun x hx => ?_
      show m.byte x = _
      rw [hm, Memory.byte_fill, if_neg fun hin => Nat.not_le.mpr hx.2.2 hin.1]
    · intro i hi
      show m.byte (p + i) = 0
      rw [hm, Memory.byte_fill, if_pos ⟨Nat.le_add_right _ _, Nat.add_lt_add_left hi _⟩]

/-! ## Deallocating -/

omit [LawfulArena A] in
theorem blockOf_ends (hheap : g.heap = some h) (hc : h.Checkable)
    (hp : wordSize < l.align → wordSize ≤ p) :
    Ends (blockOf p l) g (l.block h.store.memory p) h := by
  unfold blockOf
  by_cases hsmall : l.align ≤ wordSize
  · rw [if_pos hsmall, Layout.block_small hsmall]
    exact .pure hheap hc p
  · have hlarge := Nat.lt_of_not_le hsmall
    have hrun : (get >>= fun g' => Pure.pure (g'.memory.word (p - wordSize)) : GlobalM A Nat) g =
        .ok (h.store.memory.word (p - wordSize)) g := by
      have hmemory : g.memory = h.store.memory := by rw [memory, hheap]; rfl
      rw [← hmemory]
      rfl
    rw [if_neg hsmall, Layout.block_large hlarge]
    simp only [checkedSub_ok (hp hlarge)]
    exact ⟨fun _ => ⟨g, hrun, hheap, rfl, rfl⟩, fun hn => absurd hc hn⟩

theorem deallocate_spec (hl : h.Laid row idx) (he : e ∈ live row) (hs : Seat h.store.memory l p e) :
    ∃ h' row' idx', h'.Laid row' idx' ∧ Released h h' row row' e.bp ∧
      ∀ g : GlobalHeap A, g.heap = some h → h.Checkable → Ends (deallocate p l) g () h' := by
  obtain ⟨h', row', idx', hrun, hl', hr⟩ := Heap.release_live hl he
  have hsame := same_muted h'
  refine ⟨h'.muted, row', idx', hl'.same hsame, hr.same hsame, fun g hheap hc => ?_⟩
  have hblock := blockOf_ends hheap hc fun hlarge => Nat.le_of_add_left_le (hs.stash hlarge)
  rw [hs.block] at hblock
  exact hblock.bind (hr.same hsame).later fun g₁ hkeeps _ => .releaseBlock (.inl hkeeps.heap) hrun

/-! ## Reallocating -/

/-- What a reallocation has done that was answered with `q`: the block `e'` of that stands for
    `e`, and has its bytes. -/
structure Moved (h h' : Heap A) (row row' : List Tile) (l : Layout) (n p q : Nat)
    (e e' : Entry) : Prop where
  later : Later h h'
  seat : Seat h'.store.memory { l with size := n } q e'
  swapped : Swapped e e' row row'
  kept : Kept h.firstBlock (others row e.bp) h.store.memory h'.store.memory
  copied : ∀ i, i < min l.size n → h'.store.memory.byte (q + i) = h.store.memory.byte (p + i)

/-- A small alignment: the heap's own reallocation, as the address is the block's. -/
theorem reallocate_small (hl : h.Laid row idx) (hc : h.Checkable) (hheap : g.heap = some h)
    (he : e ∈ live row) (hs : Seat h.store.memory l p e) (hpow : l.align.isPowerOfTwo)
    (hsmall : l.align ≤ wordSize) (n : Nat) :
    (∃ h', Ends (reallocate p l n) g none h' ∧ h.Same h') ∨
    ∃ q e' h' row' idx', Ends (reallocate p l n) g (some q) h' ∧ h'.Laid row' idx' ∧
      Moved h h' row row' l n p q e e' := by
  simp only [reallocate, if_pos hsmall]
  obtain rfl : p = e.bp := (Layout.block_small hsmall _ p).symm.trans hs.block
  have hn : max n 1 ≠ 0 := by omega
  rcases Heap.tryReallocate_live hl he hn with
    ⟨err, h', hrun, hsame⟩ | ⟨e', h', row', idx', hrun, hl', hr⟩
  · obtain ⟨h'', hrun, hsame⟩ := Heap.reallocate_refused hrun hsame
    exact .inl ⟨_, (Ends.withHeap (.inl hheap) (.of_ok hrun (hsame.checkable hc))).bind_pure
      Option.join, hsame.trans (same_muted h'')⟩
  · have hl'' := hl'.same (same_muted h')
    have hr' := hr.same (same_muted h')
    have he' : e' ∈ live row' := (hr'.swapped.mem e').mpr (.inl rfl)
    have hroom := hr'.room
    refine .inr ⟨e'.bp, e', _, row', idx',
      (Ends.withHeap (.inl hheap) hrun.reallocate).bind_pure Option.join, hl'',
      ⟨hr'.later, ?_, hr'.swapped, hr'.kept, ?_⟩⟩
    · exact seat_small (l := { l with size := n }) hl'' he' hpow hsmall
        (show n + 8 ≤ e'.size by omega)
    · intro i hi
      have hsize := hs.room
      simp only [wordSize] at hsize
      exact hr'.copied i (by omega)

/-- A large alignment: a new block, the bytes copied, and the old block freed. -/
theorem reallocate_large (hl : h.Laid row idx) (hc : h.Checkable) (hheap : g.heap = some h)
    (he : e ∈ live row) (hs : Seat h.store.memory l p e) (hpow : l.align.isPowerOfTwo)
    (hlarge : wordSize < l.align) (n : Nat) :
    (∃ h', Ends (reallocate p l n) g none h' ∧ h.Same h') ∨
    ∃ q e' h' row' idx', Ends (reallocate p l n) g (some q) h' ∧ h'.Laid row' idx' ∧
      Moved h h' row row' l n p q e e' := by
  simp only [reallocate, if_neg (Nat.not_le.mpr hlarge)]
  cases hvalid : ({ l with size := n } : Layout).isValid with
  | false =>
    simp only [Bool.not_false, if_true]
    exact .inl ⟨h, .pure hheap hc none, Same.refl h⟩
  | true =>
  simp only [Bool.not_true, Bool.false_eq_true, if_false]
  rcases allocateAligned_spec (l := { l with size := n }) hl hc (.inl hheap)
      ⟨hvalid, hpow⟩ hlarge with
    ⟨h', hends, hsame⟩ | ⟨q, e', h₁, row₁, idx₁, hends, hl₁, ha, hseat⟩
  · exact .inl ⟨h', hends.bind_none rfl, hsame⟩
  -- the copy goes to the new block only, so that the old one is still found and freed
  obtain ⟨m, hm⟩ : ∃ m, m = h₁.store.memory.copy p q (min l.size n) := ⟨_, rfl⟩
  have hcopy : ∀ x, ¬ e'.Payload x → m.byte x = h₁.store.memory.byte x := fun x hx => by
    rw [hm, Memory.byte_copy,
      if_neg fun hin => hx (hseat.payload_of_range hin.1 (by have := hin.2; show x < q + n; omega))]
  obtain ⟨hl₂, ha₂⟩ := ha.withMemory hl₁ (m := m) hcopy
  have hs₂ : Seat m l p e := hs.congr fun x hx => ha₂.kept x (.inr ⟨e, he, hs.payload_of_stash hx⟩)
  obtain ⟨h', row', idx', hl', hr, hdealloc⟩ :=
    deallocate_spec hl₂ ((ha.gained.mem e).mpr (.inr he)) hs₂
  obtain ⟨hlater, hswapped, hkept⟩ := ha₂.instead hl he hr
  have hnew : ∀ x, e'.Payload x → h'.store.memory.byte x = m.byte x := fun x hx =>
    hr.kept x (.inr ⟨e', (hswapped.mem e').mpr (.inl rfl), hx⟩)
  refine .inr ⟨q, e', h', row', idx', ?_, hl', ⟨hlater, ?_, hswapped, hkept, ?_⟩⟩
  · refine hends.bind ((later_withMemory h₁ m).trans hr.later) fun g₁ hkeeps hc₁ => ?_
    have hcopying := Ends.modifyMemory hkeeps.heap hc₁ fun m => m.copy p q (min l.size n)
    rw [← hm] at hcopying
    refine hcopying.bind hr.later fun g₂ hkeeps₂ hc₂ => ?_
    exact (hdealloc g₂ hkeeps₂.heap hc₂).bind (Later.refl _) fun g₃ hkeeps₃ hc₃ =>
      .pure hkeeps₃.heap hc₃ _
  · refine hseat.congr fun x hx => ?_
    rw [hnew x (hseat.payload_of_stash hx), hm, Memory.byte_copy,
      if_neg fun hin => Nat.not_le.mpr hx.2.2 hin.1]
  · intro i hi
    have hn : i < n := Nat.lt_of_lt_of_le hi (Nat.min_le_right _ _)
    have hsize : i < l.size := Nat.lt_of_lt_of_le hi (Nat.min_le_left _ _)
    rw [hnew _ (hseat.payload_of_range (Nat.le_add_right _ _) (Nat.add_lt_add_left hn _)),
      hm, Memory.byte_copy, if_pos ⟨Nat.le_add_right _ _, Nat.add_lt_add_left hi _⟩,
      Nat.add_sub_cancel_left]
    exact ha.kept _
      (.inr ⟨e, he, hs.payload_of_range (Nat.le_add_right _ _) (Nat.add_lt_add_left hsize _)⟩)

theorem reallocate_spec (hl : h.Laid row idx) (hc : h.Checkable) (hheap : g.heap = some h)
    (he : e ∈ live row) (hs : Seat h.store.memory l p e) (hpow : l.align.isPowerOfTwo) (n : Nat) :
    (∃ h', Ends (reallocate p l n) g none h' ∧ h.Same h') ∨
    ∃ q e' h' row' idx', Ends (reallocate p l n) g (some q) h' ∧ h'.Laid row' idx' ∧
      Moved h h' row row' l n p q e e' := by
  by_cases hsmall : l.align ≤ wordSize
  · exact reallocate_small hl hc hheap he hs hpow hsmall n
  · exact reallocate_large hl hc hheap he hs hpow (Nat.lt_of_not_le hsmall) n

end GlobalHeap

end BoundaryTag
