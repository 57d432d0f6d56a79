/-
  BoundaryTag.Proofs.Packing — a heap without live blocks can be filled up to its end.

  Such a heap is one free block. A request is placed at its beginning, and what is left of it is
  again the only free block, or else less than a block: then the request was given that too, and
  there is no room for another one anyway.

  Proved: when no block is live, requests whose blocks together have no more bytes than the free
  memory are placed one behind the other, and the arena is not asked; and so are, in any order,
  requests that were once answered and then all released (`Run.packs`). The exception is a
  request for nothing, which is given nothing (`Run.nothing_unplaced`).
-/

import BoundaryTag.Proofs.Reuse
import BoundaryTag.Proofs.Watching
import Mathlib.Algebra.GroupWithZero.Nat
import Mathlib.Algebra.Order.BigOperators.Group.List
import Mathlib.Algebra.Order.Group.Nat

namespace BoundaryTag

/-- The bytes that a request takes of the free memory, if it is not too large. A request
    for nothing takes none. -/
def takes (n : Nat) : Nat :=
  if n = 0 then 0
  else match blockSize n with
    | .ok size => size
    | .error _ => 0

/-- The answers to requests that are placed one behind the other, from `a` on. -/
def packing : Nat → List Nat → List Answer
  | _, [] => []
  | a, n :: ns => .ok (if n = 0 then none else some a) :: packing (a + takes n) ns

/-- The addresses among the answers. -/
def addresses (answers : List Answer) : List Nat := answers.filterMap fun answer =>
  answer.toOption.join

theorem takes_zero : takes 0 = 0 := rfl

theorem takes_eq {n size : Nat} (hn : n ≠ 0) (hsize : blockSize n = .ok size) : takes n = size := by
  rw [takes, if_neg hn, hsize]

/-- A block that has room for the request has the bytes that it takes. -/
theorem takes_le {n size : Nat} (h8 : size % 8 = 0) (h32 : 32 ≤ size) (hroom : n + 8 ≤ size) :
    takes n ≤ size := by
  by_cases hn : n = 0
  · rw [hn, takes_zero]
    exact Nat.zero_le _
  by_cases hbig : signedMax - doubleWord < n
  · rw [takes, if_neg hn, blockSize_refused hbig]
    exact Nat.zero_le _
  · obtain ⟨least, hleast, -, -, -, hle⟩ := blockSize_eq (Nat.not_lt.mp hbig)
    rw [takes_eq hn hleast]
    exact hle size h8 h32 hroom

/-- The blocks of a row are together no larger than the space that it fills. -/
theorem Row.held_le {high a : Nat} {p : Bool} {row : List Tile} (h : Row high a p row) :
    a + ((held row).map Entry.size).sum ≤ high := by
  induction h with
  | epilogue => simp [held, Tile.entry]
  | @block a p tag ts hprev h8 h32 hrest ih =>
    cases ht : tag.alloc with
    | true =>
      rw [held_cons_alloc (t := ⟨a, tag⟩) ht, List.map_cons, List.sum_cons]
      simp only [Tile.entry]
      omega
    | false =>
      rw [held_cons_free (t := ⟨a, tag⟩) ht]
      omega

variable {A : Type} [Arena A] [LawfulArena A]

namespace Heap

variable {h h' : Heap A} {row L : List Tile} {idx : Index} {t v : Tile} {ns : List Nat}

omit [LawfulArena A] in
/-- Requests for nothing are given nothing. -/
theorem run_zeros (hzero : ∀ n ∈ ns, n = 0) (a : Nat) (h : Heap A) :
    Call.run (ns.map .allocate) h = .ok (packing a ns) h := by
  induction ns generalizing a with
  | nil => rfl
  | cons n ns ih =>
    obtain rfl : n = 0 := hzero n List.mem_cons_self
    have hrest := ih (fun m hm => hzero m (List.mem_cons_of_mem _ hm)) a
    simp only [List.map_cons, Call.run, Call.perform, HeapM.bind_apply,
      attempt_ok (allocate_zero h), hrest]
    rfl

/-- Where only the last block is free, a request that it has room for is placed at its beginning. If
    that leaves a block, it is again the only free one. -/
theorem allocate_last (hl : Laid h (L ++ [t, v]) idx) (hc : h.Checkable)
    (hfree : t.tag.alloc = false) (hL : ∀ x ∈ L, x.tag.alloc = true) {n size : Nat} (hn : n ≠ 0)
    (hsize : blockSize n = .ok size) (hle : size ≤ t.tag.size) :
    ∃ h₁, allocate n h = .ok (some t.bp) h₁ ∧ h₁.arena = h.arena ∧ h₁.Checkable ∧
      (t.tag.size - size < 32 ∨ ∃ idx₁,
        Laid h₁ (L ++ [t.front size] ++ [t.back size, v]) idx₁) := by
  obtain ⟨-, h32, -, -⟩ := blockSize_ok hsize
  have hv : v.tag.alloc = true := (hl.sound.beside hfree).2.1
  have hfind : idx.find size = some t.entry := by
    refine hl.find_only (by simp) hfree hle fun u hu hu' _ => ?_
    simp only [List.mem_append, List.mem_cons, List.not_mem_nil, or_false] at hu
    rcases hu with hu | hu | hu
    · rw [hL u hu] at hu'
      cases hu'
    · exact hu
    · rw [hu, hv] at hu'
      cases hu'
  obtain ⟨h₁, row₁, idx₁, hrun, hl₁, hlater, harena, hcarved⟩ :=
    take_carved hl hfree hsize hle h.config.logEvents
  have hc₁ : h₁.Checkable := hlater.checkable (by rw [bounds, bounds, harena]) hc
  have hanswers := Answers.allocate hn ((allocateBlock_found hl hsize hfind).trans hrun) hl₁
  refine ⟨h₁, hanswers.run hc₁, harena, hc₁, ?_⟩
  rcases hcarved.exact hl.sound hfree h32 with ⟨hsmall, -, -⟩ | ⟨-, rfl, -⟩
  · exact .inl hsmall
  · rw [List.append_cons] at hl₁
    exact .inr ⟨idx₁, hl₁⟩

/-- Where only the last block is free, requests that it has room for are placed in it one behind
    the other. -/
theorem run_packs (hl : Laid h (L ++ [t, v]) idx) (hc : h.Checkable) (hfree : t.tag.alloc = false)
    (hL : ∀ x ∈ L, x.tag.alloc = true) (hsizes : ∀ n ∈ ns, ∃ size, blockSize n = .ok size)
    (hsum : (ns.map takes).sum ≤ t.tag.size) :
    ∃ g, Call.run (ns.map .allocate) h = .ok (packing t.bp ns) g ∧ g.arena = h.arena := by
  -- what goes through is that of the blocks only the last one is free, and that it has room for
  -- all that is still to come
  induction ns generalizing h L t v idx with
  | nil => exact ⟨h, rfl, rfl⟩
  | cons n ns ih =>
    rw [List.map_cons, List.sum_cons] at hsum
    have hsizes' : ∀ m ∈ ns, ∃ size, blockSize m = .ok size :=
      fun m hm => hsizes m (List.mem_cons_of_mem _ hm)
    by_cases hn : n = 0
    · obtain ⟨g, hrun, harena⟩ := ih hl hc hfree hL hsizes' (by omega)
      refine ⟨g, ?_, harena⟩
      subst hn
      simp only [List.map_cons, Call.run, Call.perform, HeapM.bind_apply,
        attempt_ok (allocate_zero h), hrun]
      rfl
    obtain ⟨size, hsize⟩ := hsizes n List.mem_cons_self
    rw [takes_eq hn hsize] at hsum
    obtain ⟨h₁, hfirst, harena₁, hc₁, hleft⟩ :=
      allocate_last hl hc hfree hL hn hsize (by omega)
    suffices hrest : ∃ g, Call.run (ns.map .allocate) h₁ = .ok (packing (t.bp + size) ns) g ∧
        g.arena = h₁.arena by
      obtain ⟨g, hrun, harena⟩ := hrest
      refine ⟨g, ?_, harena.trans harena₁⟩
      simp only [List.map_cons, Call.run, Call.perform, HeapM.bind_apply, attempt_ok hfirst, hrun,
        packing, if_neg hn, takes_eq hn hsize]
      rfl
    rcases hleft with hsmall | ⟨idx₁, hl₁⟩
    · refine ⟨h₁, run_zeros (fun m hm => ?_) _ h₁, rfl⟩
      by_contra hm0
      obtain ⟨size', hsize'⟩ := hsizes' m hm
      obtain ⟨-, h32', -, -⟩ := blockSize_ok hsize'
      have hin : takes m ≤ (ns.map takes).sum :=
        List.single_le_sum (fun _ _ => Nat.zero_le _) _ (List.mem_map_of_mem hm)
      rw [takes_eq hm0 hsize'] at hin
      omega
    · refine ih hl₁ hc₁ rfl (fun x hx => ?_) hsizes' ?_
      · rcases List.mem_append.mp hx with hx | hx
        · exact hL x hx
        · rw [List.mem_singleton.mp hx]
          rfl
      · show (ns.map takes).sum ≤ t.tag.size - size
        omega

/-- The requests are placed one behind the other from the first block on, and the arena is
    not asked for anything. -/
def Packs (h : Heap A) (ns : List Nat) : Prop :=
  ∃ g, Call.run (ns.map .allocate) h.watched = .ok (packing h.firstBlock ns) g ∧
    Call.run (ns.map .allocate) h = .ok (packing h.firstBlock ns) g.unwatched ∧ g.arena.asked = []

theorem Laid.packs_bare (hl : Laid h row idx) (hc : h.Checkable) (hlive : live row = [])
    (hroom : h.firstBlock + 32 ≤ h.bounds.high) (hsizes : ∀ n ∈ ns, ∃ size, blockSize n = .ok size)
    (hsum : (ns.map takes).sum ≤ h.bounds.high - h.firstBlock) : h.Packs ns := by
  have hbare := hl.row_bare hlive hroom
  subst hbare
  obtain ⟨g, hrun, harena⟩ := run_packs (L := []) hl.watched hc rfl (by simp) hsizes hsum
  have hplain := Unseen.allocations ns h.watched
  rw [hrun] at hplain
  exact ⟨g, hrun, hplain, congrArg Watched.asked harena⟩

/-- What a list of allocations has added to the live blocks, when every request but those
    for nothing was answered. -/
theorem run_adds (hl : Laid h row idx) (hc : h.Checkable) {answers : List Answer}
    (hrun : Call.run (ns.map .allocate) h = .ok answers h')
    (hanswered : List.Forall₂ (fun n answer => n ≠ 0 → ∃ p, answer = .ok (some p)) ns answers) :
    ∃ es row' idx', Laid h' row' idx' ∧ h'.Checkable ∧ Later h h' ∧
      (live row').Perm (es ++ live row) ∧
      addresses answers = es.map Entry.bp ∧ (ns.map takes).sum ≤ (es.map Entry.size).sum ∧
      ∀ n ∈ ns, ∃ size, blockSize n = .ok size := by
  induction ns generalizing h row idx answers with
  | nil =>
    obtain ⟨rfl, rfl⟩ := EStateM.Result.ok.inj hrun
    exact ⟨[], row, idx, hl, hc, Later.refl h, .refl _, rfl, Nat.le_refl _, by simp⟩
  | cons n ns ih =>
    obtain ⟨answer, h₁, hcall, hrun⟩ := HeapM.bind_ok.mp hrun
    obtain ⟨answers, h₂, hrest, hlast⟩ := HeapM.bind_ok.mp hrun
    obtain ⟨rfl, rfl⟩ := EStateM.Result.ok.inj hlast
    obtain ⟨hanswer, hothers⟩ := List.forall₂_cons.mp hanswered
    rcases allocate_spec hl hc n with ⟨h', hnone, hsame⟩ | ⟨e, h', row₁, idx₁, hsome, hl₁, ha⟩
    · obtain ⟨rfl, rfl, hc₁⟩ := hnone.attempt.inv hcall
      have hn : n = 0 := by
        by_contra hn
        obtain ⟨p, hp⟩ := hanswer hn
        cases hp
      subst hn
      obtain ⟨es, row', idx', hl', hc', hlater, hperm, hes, hsum, hsizes⟩ :=
        ih (hl.same hsame) hc₁ hrest hothers
      refine ⟨es, row', idx', hl', hc', hsame.later.trans hlater, hperm, hes, ?_,
        List.forall_mem_cons.mpr ⟨⟨_, rfl⟩, hsizes⟩⟩
      rw [List.map_cons, List.sum_cons, takes_zero]
      omega
    · obtain ⟨rfl, rfl, hc₁⟩ := hsome.attempt.inv hcall
      obtain ⟨es, row', idx', hl', hc', hlater, hperm, hes, hsum, hsizes⟩ :=
        ih hl₁ hc₁ hrest hothers
      have hadded : (live row₁).Perm (e :: live row) := by
        refine (List.perm_ext_iff_of_nodup (hl₁.tiled.nodup_held.filter _)
          (List.nodup_cons.mpr ⟨?_, hl.tiled.nodup_held.filter _⟩)).mpr ?_
        · exact fun hin => ha.gained.fresh e hin rfl
        · exact fun f => (ha.gained.mem f).trans List.mem_cons.symm
      refine ⟨e :: es, row', idx', hl', hc', ha.later.trans hlater, ?_, ?_, ?_,
        List.forall_mem_cons.mpr ⟨?_, hsizes⟩⟩
      · exact hperm.trans ((hadded.append_left es).trans List.perm_middle)
      · rw [List.map_cons, ← hes]
        rfl
      · obtain ⟨t, ht, -, hte, h32⟩ := hl₁.tiled.mem_live.mp ((ha.gained.mem e).mpr (.inl rfl))
        have h8 := (hl₁.tiled.row.bounds ht).2.2.1
        have htakes : takes n ≤ e.size :=
          takes_le (by rw [← hte]; exact h8) (by rw [← hte]; exact h32) ha.room
        simp only [List.map_cons, List.sum_cons]
        omega
      · obtain ⟨-, size, hsize⟩ := allocate_some (hsome.run hc₁)
        exact ⟨size, hsize⟩

end Heap

variable {w : World A}

/-- After any run that left no block live, requests that together take no more than the free
    memory are placed in it one behind the other, without asking the arena for anything.
    Requests that have been answered, were it by growing, can be made again when all of their
    blocks are released: in any order, and they are placed one behind the other, too. -/
theorem Run.packs {arena : A} {memory : Memory} {config : Config} {past : List (Call × Answer)}
    (hs : LawfulArena.Sane arena) (hr : Run arena memory config past w) (hempty : w.holds = ∅) :
    (∀ ns, (∀ n ∈ ns, ∃ size, blockSize n = .ok size) →
      (ns.map takes).sum ≤ w.heap.bounds.high - w.heap.firstBlock → w.heap.Packs ns) ∧
    ∀ ns answers h₁, Call.run (ns.map .allocate) w.heap = .ok answers h₁ →
      List.Forall₂ (fun n answer => n ≠ 0 → ∃ p, answer = .ok (some p)) ns answers →
      ∀ (cs : List Call) (ps : List Nat), cs.map Call.frees = ps.map some →
        ps.Perm (addresses answers) →
        ∃ h₂, Call.run cs h₁ = .ok (cs.map fun _ => .ok none) h₂ ∧
          h₂.firstBlock = w.heap.firstBlock ∧
          ∀ ms, ms.Perm ns → h₂.Packs ms := by
  obtain ⟨row, idx, hw⟩ := hr.sound hs
  have hroom : w.heap.firstBlock + 32 ≤ w.heap.bounds.high := (hr.founded hs).room
  have hlive : live row = [] := by
    apply List.eq_nil_iff_forall_not_mem.mpr
    intro e he
    have hin : e.bp ∈ w.holds := (hw.holds e.bp).mpr ⟨e, he, rfl⟩
    rw [hempty] at hin
    exact absurd hin (Finset.notMem_empty _)
  refine ⟨fun ns hsizes hsum => hw.laid.packs_bare hw.checkable hlive hroom hsizes hsum, ?_⟩
  intro ns answers h₁ hrun hanswered cs ps hcs hps
  obtain ⟨es, row₁, idx₁, hl₁, hc₁, hlater₁, hperm, hes, hsum, hsizes⟩ :=
    Heap.run_adds hw.laid hw.checkable hrun hanswered
  rw [hlive, List.append_nil] at hperm
  rw [hes] at hps
  have hn : ps.Nodup := by
    have hnodup : (live row₁).Nodup := hl₁.tiled.nodup_held.filter _
    refine hps.nodup_iff.mpr (List.Nodup.map_on ?_ (hperm.nodup_iff.mp hnodup))
    exact fun e he f hf hbp => hl₁.tiled.live_inj (hperm.mem_iff.mpr he) (hperm.mem_iff.mpr hf) hbp
  have hin : ∀ p, p ∈ ps ↔ ∃ e ∈ live row₁, e.bp = p := by
    intro p
    rw [hps.mem_iff, List.mem_map]
    simp only [hperm.mem_iff]
  obtain ⟨h₂, row₂, idx₂, hrun₂, hl₂, hlater₂, hbounds₂, hheld₂⟩ :=
    Heap.run_frees hl₁ hc₁ hcs hn fun p hp => (hin p).mp hp
  have hlive₂ : live row₂ = [] := Heap.live_filter_nil hheld₂ fun e he =>
    (hin e.bp).mpr ⟨e, he, rfl⟩
  have hfirst : h₂.firstBlock = h₁.firstBlock := hlater₂.firstBlock
  have hhigh : w.heap.bounds.high ≤ h₁.bounds.high := hlater₁.high_le
  refine ⟨h₂, hrun₂, hfirst.trans hlater₁.firstBlock, ?_⟩
  intro ms hms
  refine hl₂.packs_bare (hlater₂.checkable hbounds₂ hc₁) hlive₂ ?_
    (fun n hn => hsizes n (hms.mem_iff.mp hn)) ?_
  · rw [hfirst, hlater₁.firstBlock, hbounds₂]
    omega
  · have hheld := hl₁.tiled.row.held_le
    have hsub : ((live row₁).map Entry.size).sum ≤ ((held row₁).map Entry.size).sum :=
      (List.filter_sublist.map _).sum_le_sum fun _ _ => Nat.zero_le _
    rw [(hperm.map Entry.size).sum_eq] at hsub
    rw [(hms.map takes).sum_eq, hfirst, hbounds₂]
    omega

/-- The free memory has 256 bytes. The last block is given the 8 bytes that are left. -/
theorem Run.packs_page :
    ∃ w h₁ h₂, Run page .blank {} [(.allocate 24, .ok (some 4128)), (.release 4128, .ok none)] w ∧
    w.heap.Packs [24, 0, 100, 60, 24] ∧
    Call.run ([24, 0, 100, 60, 24].map .allocate) w.heap =
      .ok [.ok (some 4128), .ok none, .ok (some 4160), .ok (some 4272), .ok (some 4344)] h₁ ∧
    Call.run [.release 4160, .release 4128, .tryRelease 4344, .release 4272] h₁ =
      .ok [.ok none, .ok none, .ok none, .ok none] h₂ ∧
    h₂.Packs [100, 0, 60, 24, 24] := by
  obtain ⟨w, hr, hholds, hlook⟩ :=
    Run.of_trial page .blank {} [.allocate 24, .release 4128] [.ok (some 4128), .ok none]
    (fun h => (h.firstBlock, h.bounds.high)) (4128, 4384) (by decide +kernel) (by decide +kernel)
  obtain ⟨hfirst, hhigh⟩ := Prod.mk.inj hlook
  obtain ⟨hpacks, hagain⟩ := Run.packs (A := FixedArena) trivial hr (by rw [hholds]; decide +kernel)
  have hpacked := hpacks [24, 0, 100, 60, 24] (by simp [blockSize, signedMax, doubleWord])
      (by rw [hfirst, hhigh]; decide)
  have ⟨g, _, hrun, _⟩ := hpacked
  rw [hfirst] at hrun
  obtain ⟨h₂, hrun₂, -, hpacked₂⟩ := hagain _ _ _ hrun (by
      rw [show packing 4128 [24, 0, 100, 60, 24] =
        [.ok (some 4128), .ok none, .ok (some 4160), .ok (some 4272), .ok (some 4344)] from rfl]
      simp)
    [.release 4160, .release 4128, .tryRelease 4344,
      .release 4272] [4160, 4128, 4344, 4272] rfl (by decide +kernel)
  exact ⟨w, g.unwatched, h₂, hr, hpacked, hrun, hrun₂, hpacked₂ _ (by decide)⟩

/-- A request for nothing has a block size, and there is room for that, but it is given nothing. -/
theorem Run.nothing_unplaced : ∃ w, Run page .blank {} [] w ∧ w.holds = ∅ ∧ blockSize 0 = .ok 32 ∧
    32 ≤ w.heap.bounds.high - w.heap.firstBlock ∧
    Call.run [.allocate 0] w.heap = .ok [.ok none] w.heap ∧
    ¬ ∃ p g, Call.run [.allocate 0] w.heap = .ok [.ok (some p)] g := by
  obtain ⟨w, hr, hholds, hlook⟩ :=
    Run.of_trial page .blank {} [] [] (fun h => (h.firstBlock, h.bounds.high)) (4128, 4384)
    (by decide +kernel) (by decide +kernel)
  obtain ⟨hfirst, hhigh⟩ := Prod.mk.inj hlook
  have hrun : Call.run [.allocate 0] w.heap = .ok [.ok none] w.heap := by
    exact Heap.run_zeros (List.forall_mem_singleton.mpr rfl) 0 w.heap
  refine ⟨w, hr, hholds, rfl, by rw [hfirst, hhigh]; decide, hrun, ?_⟩
  rintro ⟨p, g, hplaced⟩
  rw [hrun] at hplaced
  cases hplaced

end BoundaryTag
